/-
  TarnLang/Command/Listing.lean
  =============================
  **Texts of the command line.**  Banners, the listings of tokens, trees, scopes and
  symbols, and the help.  Symbols are listed in the order of their declaration in the
  text.
-/
import TarnLang.Command.Basic
import TarnLang.Node.Dump

namespace TarnLang.Listing

open Text (painted padLeft padRight repeated)

def version : String := "0.1.0"

/-! ### Banners -/

/-- The mark on both sides of a banner. -/
def rule (colors : Bool) : String := painted colors .dimmed "==="

def banner (colors : Bool) (text : String) : String :=
  rule colors ++ " " ++ text ++ " " ++ rule colors

def bannerOk (colors : Bool) (text : String) : String :=
  banner colors (painted colors .boldGreen (text ++ " OK"))

def errorCount (n : Nat) : String := if n = 1 then "1 error" else toString n ++ " errors"

def bannerFail (colors : Bool) (phase : Phase) (count : Nat) : String :=
  banner colors (painted colors .boldRed (phase.title ++ " FAILED: " ++ errorCount count))

/-- Heading of a listing, with the number of things listed. -/
def heading (colors : Bool) (what : String) (count : String) : String :=
  banner colors (what ++ " (" ++ count ++ ")") ++ "\n\n"

/-! ### Listings -/

/-- Start of a row: a position, and a word in a column of the given width. -/
def rowStart (p : Position) (width : Nat) (word : String) : String :=
  padLeft 4 (toString p.line.toNat) ++ ":" ++ padRight 3 (toString p.column.toNat) ++ " "
    ++ padRight width word ++ " "

def tokenRow (t : Token) : String := rowStart t.span.start 10 t.kind.label ++ t.text ++ "\n"

def tokens (colors : Bool) (ts : Array Token) : String :=
  heading colors "Tokens" (toString ts.size) ++ String.join (ts.toList.map tokenRow) ++ "\n"
    ++ bannerOk colors ("Lex: " ++ toString ts.size ++ " tokens") ++ "\n"

/-- Printed trees of declarations, numbered from `number` on. -/
def declarationsFrom (number : Nat) : List Node → String
  | [] => ""
  | n :: ns =>
    "--- Declaration " ++ toString number ++ " ---\n" ++ n.dump.pretty ++ "\n\n"
      ++ declarationsFrom (number + 1) ns

def program (colors : Bool) (p : Program) : String :=
  heading colors "AST" (toString p.declarations.length ++ " declarations")
    ++ declarationsFrom 1 p.declarations ++ bannerOk colors Phase.parse.title ++ "\n"

def scopeRow (colors : Bool) (depth : Nat) (s : Scope) : String :=
  let count := "(" ++ toString s.bindings.length ++ " bindings)"
  repeated (2 * (depth + 1)) ' ' ++ s.name ++ " " ++ painted colors .dimmed count ++ "\n"

def symbolRow (s : Symbol) : String :=
  rowStart s.span.start 14 s.kind.label ++ s.id.qualified ++ "\n"

def sortedSymbols (symbols : List Symbol) : List Symbol :=
  symbols.mergeSort fun a b => decide (a.span ≤ b.span)

/-- Listing of the scopes and symbols of a program. -/
def resolution (colors : Bool) (r : Resolution) : String :=
  heading colors "Scopes" (toString r.scopes.size)
    ++ String.join (r.scopes.preorder.map fun row => scopeRow colors row.1 row.2) ++ "\n"
    ++ heading colors "Symbols" (toString r.symbols.size)
    ++ String.join ((sortedSymbols r.symbols.entries.toList).map symbolRow) ++ "\n"
    ++ bannerOk colors Phase.resolve.title ++ "\n"

/-! ### Help -/

/-- Row of the help: a command or option with its argument, and what it does. -/
def helpRow (words gap text : String) : String := "  " ++ words ++ gap ++ text ++ "\n"

def help (colors : Bool) : String :=
  let sectionTitle (text : String) : String := painted colors .boldYellow text
  let word (text : String) : String := painted colors .green text
  let argument (text : String) : String := painted colors .cyan text
  painted colors .bold "Tarn" ++ " " ++ painted colors .dimmed version
    ++ " - Front end for the Tarn teaching language\n\n"
    ++ sectionTitle "Usage" ++ ": " ++ word "tarn" ++ " " ++ argument "<command>" ++ " "
    ++ argument "<file>" ++ " " ++ argument "[options]" ++ "\n\n"
    ++ sectionTitle "Compilation Phases:" ++ "\n"
    ++ helpRow (word "lex" ++ " " ++ argument "<file>") "       " "Tokenize a file and print tokens"
    ++ helpRow (word "parse" ++ " " ++ argument "<file>") "     " "Parse a file and print the tree"
    ++ helpRow (word "resolve" ++ " " ++ argument "<file>") "   "
      "Resolve names and print scopes and symbols"
    ++ helpRow (word "check" ++ " " ++ argument "<file>") "     "
      "Run every phase and report errors only"
    ++ "\n" ++ sectionTitle "Other:" ++ "\n"
    ++ helpRow (word "explain" ++ " " ++ argument "<code>") "   " "Explain an error code"
    ++ helpRow (word "help") "             " "Show this help"
    ++ helpRow (word "version") "          " "Show version"
    ++ "\n" ++ sectionTitle "Options:" ++ "\n"
    ++ helpRow (argument "--json") "        " "Output diagnostics as structured JSON"
    ++ helpRow (argument "-v" ++ " " ++ argument "--verbose") " " "Print phase banners with counts"

end TarnLang.Listing
