/-
  TarnLang/Command/Basic.lean
  ===========================
  **What the command line asks for.**  The words of a command line are options, which may
  stand anywhere, and the rest: a command and what it is about.  The result of a command
  is what it writes and the code it exits with.

  A file that cannot be read is an error with a cause; its text is part of the message.
-/
import TarnLang.FrontEnd
import TarnLang.Text.Style

namespace TarnLang

/-! ### Words -/

/-- How a command is to be carried out. -/
structure CommandOptions where
  json : Bool
  verbose : Bool
deriving DecidableEq, Repr

namespace CommandOptions

def none : CommandOptions := ⟨false, false⟩

/-- Whether a word is the option for JSON output. -/
def isJson (word : String) : Bool := word = "--json"

/-- Whether a word is the option for banners with counts. -/
def isVerbose (word : String) : Bool := word = "-v" || word = "--verbose"

/-- Options among the words of a command line. -/
def ofWords (words : List String) : CommandOptions := ⟨words.any isJson, words.any isVerbose⟩

/-- Words of a command line that are no options. -/
def others (words : List String) : List String :=
  words.filter fun word => !(isJson word || isVerbose word)

end CommandOptions

inductive Command
  | run (phase : Phase) (path : Option String)
  | explain (code : Option String)
  | help
  | version
  | unknown (word : String)
deriving DecidableEq, Repr

namespace Command

/-- Ending of the names of files that can be given without a command. -/
def fileEnding : String := ".tarn"

/-- Whether a word names a file by its ending. -/
def isFileName (word : String) : Bool := fileEnding.toList.isSuffixOf word.toList

/-- Command of words that are no options.  A file name alone asks for a check. -/
def ofWords : List String → Command
  | [] => .help
  | word :: words =>
    match word with
    | "lex" => .run .lex words.head?
    | "parse" => .run .parse words.head?
    | "resolve" => .run .resolve words.head?
    | "check" => .run .check words.head?
    | "explain" => .explain words.head?
    | "help" => .help
    | "--help" => .help
    | "-h" => .help
    | "version" => .version
    | "--version" => .version
    | "-V" => .version
    | word => if isFileName word then .run .check (some word) else .unknown word

def path? : Command → Option String
  | run _ path => path
  | _ => none

end Command

/-! ### Files -/

inductive FileError
  | notFound
  | isDirectory
  | notText
  | other (reason : String)
deriving DecidableEq, Repr

/-- Reason given for a file that cannot be read. -/
def FileError.reason : FileError → String
  | notFound => "No such file or directory (os error 2)"
  | isDirectory => "Is a directory (os error 21)"
  | notText => "stream did not contain valid UTF-8"
  | other reason => reason

/-- Text of the content of a file, which has to be UTF-8. -/
def textOfBytes (content : ByteArray) : Except FileError String :=
  match String.fromUTF8? content with
  | some text => .ok text
  | none => .error .notText

/-! ### Results -/

/-- What a command writes, and the code it exits with. -/
structure Completed where
  exit : UInt32
  stdout : String
  stderr : String
deriving DecidableEq, Repr

namespace Completed

def success (stdout : String) : Completed := ⟨0, stdout, ""⟩

def failure (stdout stderr : String) : Completed := ⟨1, stdout, stderr⟩

end Completed

/-- Whether output is coloured: when it is asked for or goes to a terminal, and not if it
    is ruled out. -/
def wantsColors (noColor forceColor terminal : Bool) : Bool := !noColor && (forceColor || terminal)

end TarnLang
