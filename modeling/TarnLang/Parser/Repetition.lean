/-
  TarnLang/Parser/Repetition.lean
  ===============================
  **Repetition.**  `many` and `manyUntil` go round again only at a later place than before,
  which is why they end: a place is at most the length of the stream.  An item that succeeds
  without reading anything ends them, and is not kept.

  `many` drops the failure that ends it.  `manyUntil` wants a terminator, and when that
  is missing reports what got further, the terminator's failure or that of the item
  which ended the repetition.  `separated` does not take a separator back: an item has
  to follow it.  It goes round as often as a separator succeeds, so it ends only where each
  item with its separator reads something.
-/
import TarnLang.Parser.Choice

namespace TarnLang.Parser

variable {ts : Array Token} {α β : Type}

/-- Items from a place on, and the place behind the last. -/
def manyFrom (item : Parser ts α) (i : Place ts) : List α × Place ts :=
  match item i with
  | .ok (x, j) =>
    if i < j then
      let (xs, k) := manyFrom item j
      (x :: xs, k)
    else ([], i)
  | .error _ => ([], i)
termination_by i.left
decreasing_by exact Place.left_lt_left ‹_›

/-- Reads items as long as they succeed and read something. -/
def many (item : Parser ts α) : Parser ts (List α) := fun i => .ok (manyFrom item i)

/-- Reads items, as `many` does, and then a terminator. -/
def manyUntil (item : Parser ts α) (terminator : Parser ts β) : Parser ts (List α × β) := fun i =>
  match item i with
  | .ok (x, j) =>
    if i < j then
      match manyUntil item terminator j with
      | .ok ((xs, last), k) => .ok ((x :: xs, last), k)
      | .error e => .error e
    else
      match terminator i with
      | .ok (last, k) => .ok (([], last), k)
      | .error expected => .error expected
  | .error e =>
    match terminator i with
    | .ok (last, k) => .ok (([], last), k)
    | .error expected => .error (e.furthest expected)
termination_by i => i.left
decreasing_by exact Place.left_lt_left ‹_›

/-- One turn of a separated list: an item, and the place behind it or, where a separator
    follows, the place behind that. -/
inductive Turn (ts : Array Token) (α : Type)
  | last (item : α) (behind : Place ts)
  | more (item : α) (next : Place ts)

/-- Reads an item and, if there is one, the separator behind it. -/
def separatedTurn (separator : Parser ts β) (item : Parser ts α) (i : Place ts) :
    Except ParseFailure (Turn ts α) :=
  match item i with
  | .ok (x, j) =>
    match separator j with
    | .ok (_, k) => .ok (.more x k)
    | .error _ => .ok (.last x j)
  | .error e => .error e

/-- A loop that is back where it was: it goes round for ever, and there is no outcome. -/
def stall (i : Place ts) : Outcome ts α := stall i
partial_fixpoint

/-- Reads one or more items with separators between them.  A turn that reads nothing is
    repeated for ever. -/
def separated (separator : Parser ts β) (item : Parser ts α) : Parser ts (List α) := fun i =>
  match separatedTurn separator item i with
  | .ok (.last x j) => .ok ([x], j)
  | .ok (.more x k) =>
    if i < k then
      match separated separator item k with
      | .ok (xs, j) => .ok (x :: xs, j)
      | .error e => .error e
    else stall k
  | .error e => .error e
termination_by i => i.left
decreasing_by exact Place.left_lt_left ‹_›

end TarnLang.Parser
