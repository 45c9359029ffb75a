/-
  TarnLang/Parser/Choice.lean
  ===========================
  **Choice.**  Alternatives are tried in order from the same place, and the first that
  succeeds is taken for good.  When all fail, the failure that got furthest is
  reported, and of several that got equally far the last.

  An optional part is absent when it fails at the very place where it was tried; a
  failure further on is a failure.  `named` gives the construct a name of its own, in
  failures at its first token only.
-/
import TarnLang.Parser.Basic

namespace TarnLang

/-- Values that have a way to say "not there", given the failure that says why. -/
class Absent (α : Type) where
  absent : ParseFailure → α

instance {α : Type} : Absent (List α) := ⟨fun _ => []⟩

instance {α : Type} : Absent (Option α) := ⟨fun _ => none⟩

namespace Parser

variable {ts : Array Token} {α : Type}

/-- Tries a parser, then another. -/
protected def orElse (p q : Parser ts α) : Parser ts α := fun i =>
  match p i with
  | .ok r => .ok r
  | .error e =>
    match q i with
    | .ok r => .ok r
    | .error e' => .error (e.furthest e')

instance : OrElse (Parser ts α) := ⟨fun p q => Parser.orElse p (q ())⟩

/-- Tries alternatives in order, after others have failed; `best` is the failure that
    is reported if these fail too. -/
def anyAfter (best : Option ParseFailure) : List (Parser ts α) → Parser ts α
  | [], i => .error (best.getD (i.failure "an alternative"))
  | p :: ps, i =>
    match p i with
    | .ok r => .ok r
    | .error e =>
      let further := match best with
        | some b => b.furthest e
        | none => e
      anyAfter (some further) ps i

def any (ps : List (Parser ts α)) : Parser ts α := anyAfter none ps

/-- Tries alternatives in order, after others have failed with `best` at the furthest. -/
def anyBehind (best : ParseFailure) : List (Parser ts α) → Parser ts α
  | [], _ => .error best
  | p :: ps, i =>
    match p i with
    | .ok r => .ok r
    | .error e => anyBehind (best.furthest e) ps i

/-- Tries alternatives in order, one of which there is, so that a failure of theirs can be
    reported. -/
def anyOf (first : Parser ts α) (others : List (Parser ts α)) : Parser ts α := fun i =>
  match first i with
  | .ok r => .ok r
  | .error e => anyBehind e others i

/-- Reads one token of any of the given kinds. -/
def oneOf (kinds : List TokenKind) : Parser ts Token := any (kinds.map token)

/-- Reads a part that may be absent. -/
def optional [Absent α] (p : Parser ts α) : Parser ts α := fun i =>
  match p i with
  | .ok r => .ok r
  | .error e => if e.offset = i.val then .ok (Absent.absent e, i) else .error e

/-- Names what a parser reads, in failures at its first token. -/
def named (construct : String) (p : Parser ts α) : Parser ts α := fun i =>
  match p i with
  | .ok r => .ok r
  | .error e => .error (if e.offset = i.val then { e with construct } else e)

end Parser

end TarnLang
