/-
  TarnLang/LineMap.lean
  =====================
  **From byte offsets to lines and columns.**  Texts are measured in bytes of
  their UTF-8 form, and positions in lines and characters.  A line map keeps, for
  each line, the byte offset of its first character and the text from there on.

  A line ends at a line feed and nowhere else.  Offsets of line starts are 32-bit
  words, and the line of an offset is found by its low 32 bits; the column counts
  characters from the start of that line, and is one when the offset does not lie
  on a character boundary at or after the line's start.
-/
import TarnLang.Span

namespace TarnLang

/-! ### Lengths in bytes -/

/-- Number of bytes that a list of characters takes in UTF-8. -/
def utf8Length : List Char → Nat
  | [] => 0
  | c :: cs => c.utf8Size + utf8Length cs

/-- Number of characters that make up exactly the first `n` bytes of a text, when
    the text is long enough and a character ends there. -/
def charsWithin : List Char → Nat → Option Nat
  | _, 0 => some 0
  | [], _ + 1 => none
  | c :: cs, n + 1 =>
    if c.utf8Size ≤ n + 1 then (charsWithin cs (n + 1 - c.utf8Size)).map (· + 1) else none

/-! ### Lines -/

/-- Start of a line: its byte offset, and the text from there to the end. -/
structure LineStart where
  offset : UInt32
  rest : List Char
deriving Repr, Inhabited

/-- The starts of the lines after the first in a text that begins at byte `offset`. -/
def lineStartsAfter (offset : Nat) : List Char → List LineStart
  | [] => []
  | c :: cs =>
    let next := offset + c.utf8Size
    if c = '\n' then ⟨next.toUInt32, cs⟩ :: lineStartsAfter next cs else lineStartsAfter next cs

structure LineMap where
  first : LineStart
  starts : Array LineStart
deriving Repr, Inhabited

namespace LineMap

def ofText (text : List Char) : LineMap :=
  let first : LineStart := ⟨0, text⟩
  ⟨first, (first :: lineStartsAfter 0 text).toArray⟩

def ofString (text : String) : LineMap := ofText text.toList

/-- Index of the last line in `lo ≤ i < hi` that starts at or before `target`, when
    line `lo` does.  The interval is halved until one line is left. -/
def lastStartAtMost (starts : Array LineStart) (target : UInt32) (lo hi : Nat) : Nat :=
  if hi ≤ lo + 1 then lo
  else
    let mid := (lo + hi) / 2
    match starts[mid]? with
    | some line =>
      if line.offset ≤ target then lastStartAtMost starts target mid hi
      else lastStartAtMost starts target lo mid
    | none => lastStartAtMost starts target lo mid
termination_by hi - lo

/-- Index, counted from zero, of the line that holds a byte offset. -/
def lineIndex (m : LineMap) (offset : Nat) : Nat :=
  lastStartAtMost m.starts offset.toUInt32 0 m.starts.size

def position (m : LineMap) (offset : Nat) : Position :=
  let index := m.lineIndex offset
  let line := m.starts.getD index m.first
  let width := (charsWithin line.rest (offset - line.offset.toNat)).getD 0
  ⟨(index + 1).toUInt32, (width + 1).toUInt32⟩

/-- Span of the bytes from `start` up to `stop`. -/
def span (m : LineMap) (start stop : Nat) : Span := ⟨m.position start, m.position stop⟩

/-- Text of a line, given by its number counted from one, without its line feed. -/
def lineText (m : LineMap) (number : UInt32) : Option String :=
  match number.toNat with
  | 0 => none
  | index + 1 => m.starts[index]?.map fun line => String.ofList (line.rest.takeWhile (· ≠ '\n'))

/-- Number of lines; a text that ends in a line feed has an empty last line. -/
def lineCount (m : LineMap) : UInt32 := m.starts.size.toUInt32

end LineMap

end TarnLang
