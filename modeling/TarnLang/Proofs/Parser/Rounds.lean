/-
  TarnLang/Proofs/Parser/Rounds.lean
  ==================================
  **Rounds of a repetition.**  `many` and `manyUntil` look whether an item read something before
  they go round again, so each round starts later than the one before, and there are no more of
  them than tokens.  `separated` does not look.  Its rounds do not go back either, but where an
  item and a separator both succeed and read nothing it is back where it was, and goes round for
  ever.
-/
import TarnLang.Proofs.Parser.Composition
import Mathlib.Data.List.Basic

namespace TarnLang

open TarnLang.Parser

variable {α β γ : Type} {ts : Array Token} {i j k : Place ts}

namespace Parser

/-- From a place on each round of a loop leads to a later place, and there are no more rounds than
    tokens left. -/
structure Advancing (Round : Place ts → Place ts → Prop) (i : Place ts) : Prop where
  lt : ∀ j k, Relation.ReflTransGen Round i j → Round j k → j < k
  length_le : ∀ ks, List.IsChain Round (i :: ks) → ks.length ≤ i.left

/-- Later and later places are no more than there are tokens. -/
theorem advancing_of_lt {Round : Place ts → Place ts → Prop}
    (h : ∀ j k, Relation.ReflTransGen Round i j → Round j k → j < k) : Advancing Round i := by
  refine ⟨h, fun ks hks => ?_⟩
  induction ks generalizing i with
  | nil => exact Nat.zero_le _
  | cons k ks ih =>
    obtain ⟨hround, hrest⟩ := List.isChain_cons_cons.mp hks
    have hrest := ih (fun j l hj => h j l (.head hround hj)) hrest
    exact Nat.lt_of_le_of_lt hrest (Place.left_lt_left (h i k .refl hround))

end Parser

namespace Composition

variable {item : Composition α} {separator : Composition β} {terminator : Composition γ}

theorem advancing_many (hitem : ∀ j, item.Ends ts j) (i : Place ts) :
    Advancing (ManyRound (item.parser ts)) i := by
  refine advancing_of_lt fun j k _ hround => ?_
  obtain ⟨-, -, hlt⟩ := (manyRound_iff (hitem j)).mp hround
  exact hlt

theorem ends_many (hitem : ∀ j, item.Ends ts j) (i : Place ts) : (many item).Ends ts i :=
  .of_lt hitem (advancing_many hitem i).lt

theorem advancing_manyUntil (item : Composition α) (i : Place ts) :
    Advancing (UntilRound (item.parser ts)) i :=
  advancing_of_lt fun _ _ _ ⟨_, _, hlt⟩ => hlt

/-- Each round of a separated list that ends is the start of one that ends. -/
theorem ends_separated_of_reached (h : (separated separator item).Ends ts i)
    (hj : Relation.ReflTransGen (SeparatedRound (separator.parser ts) (item.parser ts)) i j) :
    (separated separator item).Ends ts j := by
  induction hj with
  | refl => exact h
  | tail _ hround ih => exact LoopEnds.next ih hround

theorem ends_separated_iff (hitem : ∀ j, item.Ends ts j) (hseparator : ∀ j, separator.Ends ts j) :
    (separated separator item).Ends ts i ↔
      Advancing (SeparatedRound (separator.parser ts) (item.parser ts)) i := by
  constructor
  · intro h
    refine advancing_of_lt fun j k hj hround => ?_
    exact lt_of_separatedRound (fun _ => onwardFrom) (fun _ => onwardFrom)
      (ends_separated_of_reached h hj) hround
  · intro h
    exact .of_lt (fun j => ⟨hitem j, fun _ k _ => hseparator k⟩) h.lt

/-- A round of a separated list may stand still, where an item and a separator read nothing, but
    it does not go back. -/
theorem separatedRound_le (hitem : item.Ends ts j) (hseparator : ∀ l, separator.Ends ts l)
    (h : SeparatedRound (separator.parser ts) (item.parser ts) j k) :
    j ≤ k ∧ (k = j → ∃ x y, item.parser ts j = .ok (x, j) ∧ separator.parser ts j = .ok (y, j)) := by
  obtain ⟨x, hturn⟩ := h
  obtain ⟨l, y, hx, hy⟩ := separatedTurn_more.mp hturn
  have hjl := (onwardFrom hitem).le hx
  have hlk := (onwardFrom (hseparator l)).le hy
  refine ⟨Fin.le_trans hjl hlk, ?_⟩
  rintro rfl
  obtain rfl : l = k := Fin.le_antisymm hlk hjl
  exact ⟨x, y, hx, hy⟩

theorem separated_stall (h : SeparatedRound (separator.parser ts) (item.parser ts) i i) :
    (separated separator item).parser ts i = stall i := by
  obtain ⟨x, hturn⟩ := h
  rw [parser, Parser.separated, hturn]
  exact if_neg (Fin.lt_irrefl i)

end Composition

/-- **Rounds of the three loops**, for parts that end wherever they are tried.  Those of `many`
    and `manyUntil` advance, so both end.  Those of `separated` need not: it ends just where they
    do, and does not where a round stands still. -/
theorem repetition_rounds (item : Composition α) (separator : Composition β)
    (terminator : Composition γ) (ts : Array Token) (hitem : ∀ j, item.Ends ts j)
    (hseparator : ∀ j, separator.Ends ts j) (hterminator : ∀ j, terminator.Ends ts j)
    (i : Place ts) :
    Advancing (ManyRound (item.parser ts)) i ∧ (Composition.many item).Ends ts i ∧
    Advancing (UntilRound (item.parser ts)) i ∧ (Composition.manyUntil item terminator).Ends ts i ∧
    ((Composition.separated separator item).Ends ts i ↔
      Advancing (SeparatedRound (separator.parser ts) (item.parser ts)) i) ∧
    (∀ k, SeparatedRound (separator.parser ts) (item.parser ts) i k →
      i < k ∨ k = i ∧ (∃ x y, item.parser ts i = .ok (x, i) ∧ separator.parser ts i = .ok (y, i)) ∧
        ¬ (Composition.separated separator item).Ends ts i ∧
        (Composition.separated separator item).parser ts i = stall i) := by
  have huntil := Composition.advancing_manyUntil item i
  refine ⟨Composition.advancing_many hitem i, Composition.ends_many hitem i, huntil,
    .of_lt (fun j => ⟨hitem j, fun _ => hterminator j⟩) huntil.lt,
    Composition.ends_separated_iff hitem hseparator, fun k hround => ?_⟩
  obtain ⟨hle, hstill⟩ := Composition.separatedRound_le (hitem i) hseparator hround
  rcases Nat.lt_or_eq_of_le hle with hlt | heq
  · exact .inl hlt
  · obtain rfl : i = k := Fin.ext heq
    exact .inr ⟨rfl, hstill rfl, fun h => LoopEnds.irrefl h hround,
      Composition.separated_stall hround⟩

/-- An open parenthesis with nothing behind it is no statement, and there is no comma.  A list of
    runs of statements, with any number of commas in between, never ends there. -/
theorem repetition_rounds_on_open_parenthesis :
    let item : Composition (List Node) := .many (.rule .statement)
    let separator : Composition (List Token) := .many (.token .comma)
    let ts := (tokenize "(").tokens
    SeparatedRound (separator.parser ts) (item.parser ts) 0 0 ∧
      ¬ (Composition.separated separator item).Ends ts 0 ∧
      (Composition.separated separator item).parser ts 0 = stall 0 := by
  intro item separator ts
  have hitem : item.parser ts 0 = .ok ([], 0) := by
    have hfails : ((Composition.rule .statement).parser ts 0).toOption.isNone := by
      decide +kernel
    apply many_ok.mpr
    cases h : (Composition.rule .statement).parser ts 0 with
    | ok r =>
      rw [h] at hfails
      cases hfails
    | error f => exact ⟨.nil 0, stops_of_error h⟩
  have hround : SeparatedRound (separator.parser ts) (item.parser ts) 0 0 :=
    ⟨[], separatedTurn_more.mpr ⟨0, [], hitem, by decide +kernel⟩⟩
  obtain ⟨-, -, -, -, -, hrounds⟩ := repetition_rounds item separator (.token .semi) ts
    (Composition.ends_many fun _ => trivial) (Composition.ends_many fun _ => trivial)
    (fun _ => trivial) 0
  rcases hrounds 0 hround with hlt | ⟨-, -, hends, hstall⟩
  · exact absurd hlt (Fin.lt_irrefl 0)
  · exact ⟨hround, hends, hstall⟩

end TarnLang
