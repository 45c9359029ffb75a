/-
  TarnLang/Text/Style.lean
  ========================
  **Styled text for terminals.**  A style is switched on by an escape sequence with its
  codes, and everything is switched off again behind the text.  Where the text itself
  holds the sequence that switches everything off, the style is switched on again after
  it.  Without colours the text stands as it is.
-/

namespace TarnLang.Text

inductive Style
  | bold | dimmed | underlined
  | blue | cyan | green
  | boldRed | boldBlue | boldCyan | boldGreen | boldYellow
deriving DecidableEq, Repr

def Style.codes : Style → String
  | .bold => "1"
  | .dimmed => "2"
  | .underlined => "4"
  | .blue => "34"
  | .cyan => "36"
  | .green => "32"
  | .boldRed => "1;31"
  | .boldBlue => "1;34"
  | .boldCyan => "1;36"
  | .boldGreen => "1;32"
  | .boldYellow => "1;33"

def Style.on (s : Style) : String := "\x1b[" ++ s.codes ++ "m"

def styleOff : String := "\x1b[0m"

/-- Switches a style on again after each sequence in a text that switches it off. -/
def resumed (on : List Char) : List Char → List Char
  | [] => []
  | '\x1b' :: '[' :: '0' :: 'm' :: cs => '\x1b' :: '[' :: '0' :: 'm' :: on ++ resumed on cs
  | c :: cs => c :: resumed on cs

/-- Text in a style, if colours are wanted. -/
def painted (colors : Bool) (s : Style) (text : String) : String :=
  if colors then s.on ++ String.ofList (resumed s.on.toList text.toList) ++ styleOff else text

/-! ### Columns -/

def repeated (n : Nat) (c : Char) : String := String.ofList (List.replicate n c)

/-- Text moved to the right edge of a column. -/
def padLeft (width : Nat) (text : String) : String := repeated (width - text.length) ' ' ++ text

/-- Text at the left edge of a column. -/
def padRight (width : Nat) (text : String) : String := text ++ repeated (width - text.length) ' '

end TarnLang.Text
