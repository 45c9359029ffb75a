/-
  TarnLang/Span.lean
  ==================
  **Positions and spans.**  A position is a line and a column, both counted from
  one; a span runs from its first position to the position just past its end.
  Lines and columns are 32-bit words, so a span can be written down for any four
  words, sensible or not; nothing here assumes that a span runs forwards.

  Positions are ordered by line and then by column, spans by their start and then
  by their end.  `Span.contains` and `Span.precedes` are stated with the order of
  positions.
-/

namespace TarnLang

/-- A place in a text: line and column, both counted from one. -/
structure Position where
  line : UInt32
  column : UInt32
deriving DecidableEq, Repr, Inhabited

namespace Position

/-- Strict order of positions: the earlier line first, then the smaller column. -/
protected def lt (p q : Position) : Prop :=
  p.line < q.line ∨ p.line = q.line ∧ p.column < q.column

/-- Order of positions: the earlier line first, then the smaller column. -/
protected def le (p q : Position) : Prop :=
  p.line < q.line ∨ p.line = q.line ∧ p.column ≤ q.column

instance : LT Position := ⟨Position.lt⟩

instance : LE Position := ⟨Position.le⟩

instance (p q : Position) : Decidable (p < q) :=
  inferInstanceAs (Decidable (p.line < q.line ∨ p.line = q.line ∧ p.column < q.column))

instance (p q : Position) : Decidable (p ≤ q) :=
  inferInstanceAs (Decidable (p.line < q.line ∨ p.line = q.line ∧ p.column ≤ q.column))

def origin : Position := ⟨1, 1⟩

/-- The written form `line:column`. -/
def display (p : Position) : String :=
  toString p.line.toNat ++ ":" ++ toString p.column.toNat

end Position

/-- A stretch of text, from `start` up to but not including `stop`. -/
structure Span where
  start : Position
  stop : Position
deriving DecidableEq, Repr, Inhabited

namespace Span

/-- Span with the given four words, in reading order. -/
def ofWords (startLine startColumn stopLine stopColumn : UInt32) : Span :=
  ⟨⟨startLine, startColumn⟩, ⟨stopLine, stopColumn⟩⟩

def point (p : Position) : Span := ⟨p, p⟩

/-- Union that runs from the start of the first span to the end of the second. -/
def through (a b : Span) : Span := ⟨a.start, b.stop⟩

/-- A span is empty when it ends where it starts. -/
def isEmpty (s : Span) : Bool := s.start = s.stop

/-- Whether the second span lies within the first. -/
def contains (a b : Span) : Bool := a.start ≤ b.start ∧ b.stop ≤ a.stop

/-- Whether the first span ends no later than the second one starts. -/
def precedes (a b : Span) : Bool := a.stop ≤ b.start

/-- Order of spans: the earlier start first, then the earlier end. -/
protected def le (a b : Span) : Prop :=
  a.start < b.start ∨ a.start = b.start ∧ a.stop ≤ b.stop

instance : LE Span := ⟨Span.le⟩

instance (a b : Span) : Decidable (a ≤ b) :=
  inferInstanceAs (Decidable (a.start < b.start ∨ a.start = b.start ∧ a.stop ≤ b.stop))

def compare (a b : Span) : Ordering :=
  if a = b then .eq else if a ≤ b then .lt else .gt

/-- A span is written as its start. -/
def display (s : Span) : String := s.start.display

end Span

end TarnLang
