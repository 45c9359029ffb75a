/-
  TarnLang/Diagnostic/Layout.lean
  ===============================
  **Diagnostics on a terminal.**  A diagnostic is laid out as rows, and each row is then
  written as a line.

      error[E0202]: procedure `log` does not produce a value
        --> main.tarn:4:13
          |
        1 | proc log(message) {
          |      --- procedure defined here
      ...
        4 |     let x = log(1);
          |             ^^^ used as a value
          = note: procedures can only be called as statements

  Sites come in the order of their start.  Sites on one line share its source row, and a
  row of dots stands between source rows whose lines are not adjacent.  Below the source
  row, each site is underlined on the line where it starts, at least one column wide; a
  site that ends on another line is underlined to one past the end of its first line.
-/
import TarnLang.Diagnostic.Basic
import TarnLang.LineMap
import TarnLang.Text.Style

namespace TarnLang

/-! ### Rows -/

/-- What a site is to a diagnostic: the site it is about, or a related one. -/
inductive Site
  | primary
  | related
deriving DecidableEq, Repr

inductive LayoutRow
  | heading (code message : String)
  | location (position : Position)
  | empty
  | dots
  | source (line : UInt32) (text : String)
  | underline (skipped width : Nat) (site : Site) (message : String)
  | remark (kind text : String)
deriving DecidableEq, Repr

/-- Sites of a diagnostic in the order of their start; the primary site goes first where
    both start together. -/
def Diagnostic.sites (d : Diagnostic) : List (Label × Site) :=
  match d.primary, d.related with
  | some p, some r =>
    if r.span.start < p.span.start then [(r, .related), (p, .primary)]
    else [(p, .primary), (r, .related)]
  | some p, none => [(p, .primary)]
  | none, some r => [(r, .related)]
  | none, none => []

/-- Text of a line; a line that is not there is empty. -/
def LineMap.lineTextOrEmpty (m : LineMap) (line : UInt32) : String := (m.lineText line).getD ""

def underlineRow (lines : LineMap) (label : Label) (site : Site) : LayoutRow :=
  let span := label.span
  let start := max span.start.column.toNat 1
  let stop :=
    if span.stop.line = span.start.line then span.stop.column.toNat
    else (lines.lineTextOrEmpty span.start.line).length + 1
  .underline (start - 1) (max (stop - start) 1) site label.message

/-- The rows of sites, when the source row of line `shown` is the last one so far. -/
def siteRows (lines : LineMap) (shown : Option UInt32) : List (Label × Site) → List LayoutRow
  | [] => []
  | (label, site) :: rest =>
    let line := label.span.start.line
    let source :=
      if shown = some line then []
      else
        let row := LayoutRow.source line (lines.lineTextOrEmpty line)
        match shown with
        | some last => if line > last + 1 then [.dots, row] else [row]
        | none => [row]
    source ++ underlineRow lines label site :: siteRows lines (some line) rest

def Diagnostic.rows (lines : LineMap) (d : Diagnostic) : List LayoutRow :=
  let location := match d.primary with
    | some label => [.location label.span.start, .empty]
    | none => []
  let remarks := (d.note.map (LayoutRow.remark "note")).toList
    ++ (d.help.map (LayoutRow.remark "help")).toList
  .heading d.code d.message :: location ++ siteRows lines none d.sites ++ remarks

/-! ### Lines -/

open Text (painted padLeft repeated)

def lineDigits (line : UInt32) : Nat := (toString line.toNat).length

/-- Width of the column of line numbers: that of the longest one shown, and at least
    two. -/
def Diagnostic.numberWidth (d : Diagnostic) : Nat :=
  (d.sites.map fun s => lineDigits s.1.span.start.line).foldl max 2

def Site.mark : Site → Char
  | primary => '^'
  | related => '-'

def Site.style : Site → Text.Style
  | primary => .boldRed
  | related => .blue

/-- How diagnostics are written: whether with colours, and under which file name. -/
structure LayoutOptions where
  colors : Bool
  fileName : String
deriving Repr

/-- A row as a line, when line numbers are `width` wide. -/
def LayoutRow.write (options : LayoutOptions) (width : Nat) (row : LayoutRow) : String :=
  let paint := painted options.colors
  let margin := repeated (width + 2) ' '
  match row with
  | .heading code message =>
    paint .boldRed "error" ++ "[" ++ paint .boldRed code ++ "]: " ++ paint .bold message
  | .location position =>
    repeated width ' ' ++ paint .blue "-->" ++ " " ++ options.fileName ++ ":" ++ position.display
  | .empty => margin ++ paint .blue "|"
  | .dots => paint .blue "..."
  | .source line text =>
    paint .boldBlue (padLeft (width + 1) (toString line.toNat)) ++ " " ++ paint .blue "|" ++ " " ++ text
  | .underline skipped marks site message =>
    margin ++ paint .blue "|" ++ " " ++ repeated skipped ' '
      ++ paint site.style (repeated marks site.mark) ++ " " ++ paint site.style message
  | .remark kind text =>
    margin ++ paint .cyan "=" ++ " " ++ paint .boldCyan kind ++ ": " ++ text

/-- A diagnostic as text; every line ends in a line feed. -/
def Diagnostic.format (options : LayoutOptions) (lines : LineMap) (d : Diagnostic) : String :=
  String.join ((d.rows lines).map fun row => row.write options d.numberWidth ++ "\n")

end TarnLang
