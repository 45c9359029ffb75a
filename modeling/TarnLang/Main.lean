/-
  TarnLang/Main.lean
  ==================
  **The program.**  Reads the environment and the file that the command line names, and
  writes what the command says.
-/
import TarnLang.Command.Run

namespace TarnLang

/-- Number and text that the system gives for an error. -/
def systemCause : IO.Error → Option (UInt32 × String)
  | .alreadyExists _ code text | .invalidArgument _ code text | .permissionDenied _ code text
  | .resourceExhausted _ code text | .inappropriateType _ code text | .noSuchThing _ code text
  | .interrupted _ code text | .noFileOrDirectory _ code text | .otherError code text
  | .resourceBusy code text | .resourceVanished code text | .unsupportedOperation code text
  | .hardwareFault code text | .unsatisfiedConstraints code text | .illegalOperation code text
  | .protocolError code text | .timeExpired code text => some (code, text)
  | .unexpectedEof | .userError _ => none

/-- Cause of an error in reading a file. -/
def fileErrorOf (e : IO.Error) : FileError :=
  match systemCause e with
  | some (2, _) => .notFound
  | some (21, _) => .isDirectory
  | some (code, text) => .other (text ++ " (os error " ++ toString code.toNat ++ ")")
  | none => .other (toString e)

def readText (path : String) : IO (Except FileError String) := do
  match ← (IO.FS.readBinFile path).toBaseIO with
  | .ok content => pure (textOfBytes content)
  | .error e => pure (.error (fileErrorOf e))

end TarnLang

/-- Entry point. -/
def main (words : List String) : IO UInt32 := do
  let noColor := (← IO.getEnv "NO_COLOR").isSome
  let forceColor := (← IO.getEnv "FORCE_COLOR").isSome
  let colors := TarnLang.wantsColors noColor forceColor (← (← IO.getStdout).isTty)
  let command := TarnLang.Command.ofWords (TarnLang.CommandOptions.others words)
  let content ← match command.path? with
    | some path => TarnLang.readText path
    | none => pure (.error .notFound)
  let completed := TarnLang.runWords words colors fun _ => content
  IO.print completed.stdout
  IO.eprint completed.stderr
  pure completed.exit
