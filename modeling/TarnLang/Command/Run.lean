/-
  TarnLang/Command/Run.lean
  =========================
  **Carrying out a command.**  A command is a function of the words of the command line,
  of the content of the file it names, of whether output is coloured, and of the order in
  which a table gives its symbols.

  A phase runs after the phases before it and ends the command at the first one that
  finds errors.  Of several lexical errors that follow each other on one line, only the
  first is shown.  With JSON output a command writes one report and nothing else to
  standard output.
-/
import TarnLang.Command.Listing
import TarnLang.Diagnostic.Report

namespace TarnLang

open Text (painted)

/-! ### Phases -/

/-- The first error of each run of errors that start on the same line; `last` is the line
    of the error before. -/
def firstPerLineAfter (last : Option UInt32) : List LexError → List LexError
  | [] => []
  | e :: es =>
    let line := e.span.start.line
    if last = some line then firstPerLineAfter last es else e :: firstPerLineAfter (some line) es

/-- The first error of each run of errors that start on the same line. -/
def firstPerLine (errors : List LexError) : List LexError := firstPerLineAfter none errors

/-- A file that a phase runs over, and how its results are to be written. -/
structure Job where
  options : CommandOptions
  colors : Bool
  order : TableOrder
  path : String
  source : String

namespace Job

def report (job : Job) (phase : Phase) (diagnostics : List Diagnostic) : String :=
  (Report.mk job.source job.path phase.label diagnostics).write ++ "\n"

/-- Diagnostics as text, each with an empty line behind it. -/
def formatted (job : Job) (diagnostics : List Diagnostic) : String :=
  let lines := LineMap.ofString job.source
  String.join (diagnostics.map fun d => d.format ⟨job.colors, job.path⟩ lines ++ "\n")

/-- End of a job in a phase that found errors. -/
def failed (job : Job) (phase : Phase) (diagnostics : List Diagnostic) : Completed :=
  if job.options.json then .failure (job.report phase diagnostics) ""
  else
    .failure "" (job.formatted diagnostics ++ "\n"
      ++ Listing.bannerFail job.colors phase diagnostics.length ++ "\n")

def succeeded (job : Job) (phase : Phase) (listing : String) : Completed :=
  .success (if job.options.json then job.report phase [] else listing)

/-- Goes on after a phase, with a banner if banners are wanted. -/
def announced (job : Job) (text : String) (rest : Completed) : Completed :=
  if job.options.verbose then
    { rest with stderr := Listing.banner job.colors text ++ "\n" ++ rest.stderr }
  else rest

/-- Resolves a program, as the last phase or as part of a check. -/
def resolvePhase (job : Job) (phase : Phase) (p : Program) : Completed :=
  let resolution := (resolve p).arranged job.order
  job.announced ("Resolved " ++ toString resolution.symbols.size ++ " symbols in "
      ++ toString resolution.scopes.size ++ " scopes")
    (if !resolution.isOk then job.failed .resolve resolution.diagnostics
      else if phase = .resolve then
        job.succeeded .resolve (Listing.resolution job.colors resolution)
      else job.succeeded .check (Listing.bannerOk job.colors Phase.check.title ++ "\n"))

/-- Parses tokens and goes on if more than that is asked for. -/
def parsePhase (job : Job) (phase : Phase) (tokens : Array Token) : Completed :=
  match parse tokens with
  | .error failure => job.failed .parse [failure.diagnostic]
  | .ok p =>
    job.announced ("Parsed " ++ toString p.declarations.length ++ " declarations")
      (if phase = .parse then job.succeeded .parse (Listing.program job.colors p)
        else job.resolvePhase phase p)

/-- Runs the phases up to the one asked for. -/
def run (job : Job) (phase : Phase) : Completed :=
  let lexed := tokenize job.source
  if !lexed.isOk then
    job.failed .lex ((firstPerLine lexed.errors.toList).map (·.diagnostic))
  else
    job.announced ("Lexed " ++ toString lexed.tokens.size ++ " tokens")
      (if phase = .lex then job.succeeded .lex (Listing.tokens job.colors lexed.tokens)
        else job.parsePhase phase lexed.tokens)

end Job

/-! ### Commands -/

def errorWord (colors : Bool) : String := painted colors .boldRed "error"

/-- Explains an error code, given in any case of letters. -/
def explainCode (colors : Bool) (code : String) : Completed :=
  match ErrorCode.ofText? (code.map Char.toUpper) with
  | some e =>
    .success (painted colors .bold e.text ++ ": " ++ e.title ++ "\n"
      ++ painted colors .dimmed "category:" ++ " " ++ e.category.label ++ "\n")
  | none =>
    .failure "" (errorWord colors ++ ": unknown error code `" ++ code ++ "`\n"
      ++ painted colors .dimmed "known codes:" ++ " "
      ++ String.intercalate ", " (ErrorCode.all.map (·.text)) ++ "\n")

/-- Carries out a command.  `read` gives the text of a file. -/
def Command.carryOut (options : CommandOptions) (colors : Bool) (order : TableOrder)
    (read : String → Except FileError String) : Command → Completed
  | run phase none =>
    .failure "" ("Usage: tarn " ++ phase.label ++ " <file.tarn> [--json] [--verbose]\n")
  | run phase (some path) =>
    match read path with
    | .ok source => Job.run ⟨options, colors, order, path, source⟩ phase
    | .error e =>
      .failure "" (errorWord colors ++ ": reading " ++ painted colors .underlined path ++ ": "
        ++ e.reason ++ "\n")
  | explain none => .failure "" "Usage: tarn explain <code>\n"
  | explain (some code) => explainCode colors code
  | help => .success (Listing.help colors)
  | version => .success ("tarn " ++ Listing.version ++ "\n")
  | unknown word =>
    .failure (Listing.help colors) (errorWord colors ++ ": unknown command: " ++ word ++ "\n")

/-- Carries out the words of a command line, with symbols in any order. -/
def runWordsIn (order : TableOrder) (words : List String) (colors : Bool)
    (read : String → Except FileError String) : Completed :=
  (Command.ofWords (CommandOptions.others words)).carryOut (CommandOptions.ofWords words) colors
    order read

/-- Carries out the words of a command line, with symbols in the order of their insertion. -/
def runWords (words : List String) (colors : Bool) (read : String → Except FileError String) :
    Completed :=
  runWordsIn .inserted words colors read

end TarnLang
