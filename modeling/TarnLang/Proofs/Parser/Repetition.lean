/-
  TarnLang/Proofs/Parser/Repetition.lean
  ======================================
  **Repetitions in terms of `many`.**  A list with separators is a run of pairs, each an item with
  the separator behind it, and a last item.  A list with a terminator is a run of items and the
  terminator.  `separated` and `manyUntil` read just that, in one pass.

  The run of pairs tries the last item twice and drops the failure that ends it.  `separated` has
  read that item and looks for a separator behind it.  Both loops stop at the same place, and
  there the last item decides.  `manyUntil` stops where `many` does, but remembers what stopped it.
-/
import TarnLang.Lexer
import TarnLang.Proofs.Parser.Composition

namespace TarnLang.Parser

variable {α β : Type} {ts : Array Token} {i k : Place ts}

/-- A second part behind a repetition starts where the repetition stops. -/
theorem both_many_of_runs {item : Parser ts α} {xs : List α} (h : Runs item i xs k)
    (last : Parser ts β) :
    both (many item) last i = (last k).map fun (y, l) => ((xs, y), l) := by
  show Parser.bind (many item) (fun xs => last >>= fun y => pure (xs, y)) i = _
  rw [Parser.bind, many_ok.mpr h]
  show Parser.bind last (fun y => pure (xs, y)) k = _
  rw [Parser.bind]
  cases last k <;> rfl

/-! ### Lists with separators -/

section Separated

variable {item : Parser ts α} {separator : Parser ts β} {pairs : List (α × β)}

/-- Reads pairs of an item and a separator as long as it can, and one item more. -/
def pairsThenItem (separator : Parser ts β) (item : Parser ts α) : Parser ts (List α) :=
  (fun (pairs, last) => pairs.map Prod.fst ++ [last]) <$> both (many (both item separator)) item

theorem pairsThenItem_of_runs (h : Runs (both item separator) i pairs k) :
    pairsThenItem separator item i =
      (item k).map fun (x, l) => (pairs.map Prod.fst ++ [x], l) := by
  show Parser.bind (both (many (both item separator)) item) _ i = _
  rw [Parser.bind, both_many_of_runs h item]
  cases item k <;> rfl

/-- A pair is a turn of the list that another one follows. -/
theorem separatedTurn_of_both {x : α} {y : β} (h : both item separator i = .ok ((x, y), k)) :
    separatedTurn separator item i = .ok (.more x k) := by
  obtain ⟨j, hx, hy⟩ := both_ok.mp h
  exact separatedTurn_more.mpr ⟨j, y, hx, hy⟩

/-- The loop over pairs goes round where the loop over turns does. -/
theorem separatedRound_iff_manyRound (hadvances : Advances separator item) :
    SeparatedRound separator item i k ↔ ManyRound (both item separator) i k := by
  constructor
  · rintro ⟨x, hturn⟩
    obtain ⟨j, y, hx, hy⟩ := separatedTurn_more.mp hturn
    exact ⟨(x, y), both_ok.mpr ⟨j, hx, hy⟩, (Fin.ne_of_lt (hadvances hturn)).symm⟩
  · rintro ⟨⟨x, y⟩, hpair, -⟩
    exact ⟨x, separatedTurn_of_both hpair⟩

/-- A list without pairs is its last item. -/
theorem separated_of_error {e : ParseFailure} (h : both item separator i = .error e) :
    separated separator item i = (item i).map fun (x, j) => ([x], j) := by
  rcases both_error.mp h with hitem | ⟨x, j, hx, hseparator⟩
  · rw [separated, separatedTurn, hitem]
    rfl
  · rw [separated, separatedTurn_last.mpr ⟨hx, e, hseparator⟩, hx]
    rfl

/-- Behind pairs a list goes on with its last item.  By induction on the pairs. -/
theorem separated_of_pairs {e : ParseFailure} (h : Items (both item separator) i pairs k)
    (hstop : both item separator k = .error e) :
    separated separator item i =
      (item k).map fun (x, l) => (pairs.map Prod.fst ++ [x], l) := by
  induction h with
  | nil i => exact separated_of_error hstop
  | @cons i j k pair pairs hpair hij _ ih =>
    rw [separated, separatedTurn_of_both hpair]
    simp only [if_pos hij, ih hstop]
    cases item k <;> rfl

/-- Where pairs read something, they end only where none can be read. -/
theorem exists_error_of_stops (hadvances : Advances separator item)
    (hstop : Stops (both item separator) k) : ∃ e, both item separator k = .error e := by
  cases hpair : both item separator k with
  | error e => exact ⟨e, rfl⟩
  | ok r =>
    obtain ⟨⟨x, y⟩, l⟩ := r
    exact absurd (hadvances (separatedTurn_of_both hpair)) (hstop _ l hpair)

theorem separated_of_runs (hadvances : Advances separator item)
    (h : Runs (both item separator) i pairs k) :
    separated separator item i =
      (item k).map fun (x, l) => (pairs.map Prod.fst ++ [x], l) := by
  obtain ⟨e, he⟩ := exists_error_of_stops hadvances h.2
  exact separated_of_pairs h.1 he

/-- A list fails where an item is missing, be it the first one or one behind a separator. -/
theorem separated_error_iff (hadvances : Advances separator item) {f : ParseFailure} :
    separated separator item i = .error f ↔
      ∃ pairs k, Items (both item separator) i pairs k ∧ item k = .error f := by
  constructor
  · intro h
    obtain ⟨pairs, k, hruns⟩ := exists_runs (both item separator) i
    rw [separated_of_runs hadvances hruns] at h
    refine ⟨pairs, k, hruns.1, ?_⟩
    cases hitem : item k with
    | ok r =>
      rw [hitem] at h
      cases h
    | error e =>
      rw [hitem] at h
      exact congrArg Except.error (Except.error.inj h)
  · rintro ⟨pairs, k, hitems, hitem⟩
    have hstop : both item separator k = .error f := both_error.mpr (Or.inl hitem)
    rw [separated_of_pairs hitems hstop, hitem]
    rfl

end Separated

/-- **A list with separators is a run of pairs and a last item**, for items that do not go back
    and separators that read something.  Items, places and failures are the same, and so is each
    round of the two loops.  So an item that is missing behind a separator is missing, whatever
    stands in front. -/
theorem separated_agrees_with_pairs (separator : Parser ts β) (item : Parser ts α)
    (hitem : ∀ {i j x}, item i = .ok (x, j) → i ≤ j)
    (hseparator : ∀ {i j y}, separator i = .ok (y, j) → i < j) (i : Place ts) :
    separated separator item i = pairsThenItem separator item i ∧
    (∀ f, separated separator item i = .error f ↔
      ∃ pairs k, Items (both item separator) i pairs k ∧ item k = .error f) ∧
    ∀ j k, SeparatedRound separator item j k ↔ ManyRound (both item separator) j k := by
  have hadvances : Advances separator item := advances_of_le_of_lt hitem hseparator
  refine ⟨?_, fun f => separated_error_iff hadvances,
    fun j k => separatedRound_iff_manyRound hadvances⟩
  obtain ⟨pairs, k, hruns⟩ := exists_runs (both item separator) i
  rw [separated_of_runs hadvances hruns, pairsThenItem_of_runs hruns]

/-- Two names, each with a comma behind it: the name behind the second comma is missing. -/
theorem separated_agrees_with_pairs_behind_comma :
    let ts := (tokenize "a, b,").tokens
    let name : Parser ts Token := token .ident
    let comma : Parser ts Token := token .comma
    (∀ {i j x}, name i = .ok (x, j) → i ≤ j) ∧ (∀ {i j y}, comma i = .ok (y, j) → i < j) ∧
      separated comma name 0 = .error (Place.failure "a name" (4 : Place ts)) ∧
      pairsThenItem comma name 0 = .error (Place.failure "a name" (4 : Place ts)) := by
  intro ts name comma
  have hname : ∀ {i j x}, name i = .ok (x, j) → i ≤ j := (Onward.token _).le
  have hcomma : ∀ {i j y}, comma i = .ok (y, j) → i < j := fun h => (token_ok.mp h).lt
  obtain ⟨hsame, hfails, -⟩ := separated_agrees_with_pairs comma name hname hcomma 0
  have hstop : (manyFrom (both name comma) 0).2 = 4 := by decide +kernel
  have hruns : Runs (both name comma) 0 _ 4 := manyFrom_eq_iff.mp (Prod.ext rfl hstop)
  have hmissing : name 4 = .error (Place.failure "a name" (4 : Place ts)) := by decide +kernel
  have hfailure := (hfails _).mpr ⟨_, 4, hruns.1, hmissing⟩
  exact ⟨hname, hcomma, hfailure, hsame ▸ hfailure⟩

/-! ### Lists with a terminator -/

/-- **A list with a terminator is a run of items and the terminator**, for items that do not go
    back, and differs in the failure alone.  When the terminator is missing, the failure of the
    item that ended the run is reported if it got further; an item that succeeds and reads nothing
    has none.  `many` has a test of its own for such an item, and stops there all the same. -/
theorem manyUntil_agrees_with_many (item : Parser ts α) (terminator : Parser ts β)
    (hitem : ∀ {i j x}, item i = .ok (x, j) → i ≤ j) (i : Place ts) :
    (∀ r, manyUntil item terminator i = .ok r ↔ both (many item) terminator i = .ok r) ∧
    (∀ t, both (many item) terminator i = .error t →
      ∃ xs k, many item i = .ok (xs, k) ∧ terminator k = .error t ∧
        ((∃ g, item k = .error g ∧ manyUntil item terminator i =
            .error (if t.offset < g.offset then g else t)) ∨
          ∃ x, item k = .ok (x, k) ∧ manyUntil item terminator i = .error t)) ∧
    ∀ j, many item j =
      match item j with
      | .ok (x, k) =>
        if k = j then .ok ([], j) else (many item k).map fun (xs, l) => (x :: xs, l)
      | .error _ => .ok ([], j) := by
  obtain ⟨xs, k, hruns⟩ := exists_runs item i
  have huntil : manyUntil item terminator i = _ := manyUntil_of_runs hruns
  have hboth := both_many_of_runs hruns terminator
  refine ⟨fun r => ?_, fun t ht => ?_, fun j => many_eq hitem⟩
  · rw [huntil, hboth]
    cases terminator k with
    | ok s => rfl
    | error e => exact ⟨nofun, nofun⟩
  · cases hend : terminator k with
    | ok s =>
      rw [hboth, hend] at ht
      cases ht
    | error e =>
      rw [hboth, hend] at ht
      obtain rfl := Except.error.inj ht
      rw [hend] at huntil
      refine ⟨xs, k, many_ok.mpr hruns, hend, ?_⟩
      cases hx : item k with
      | error g =>
        rw [hx] at huntil
        refine Or.inl ⟨g, rfl, huntil.trans (congrArg Except.error ?_)⟩
        split
        · exact ParseFailure.furthest_of_lt ‹_›
        · exact ParseFailure.furthest_of_le (Nat.not_lt.mp ‹_›)
      | ok s =>
        obtain ⟨x, l⟩ := s
        -- the run stops here, so this item read nothing
        obtain rfl : k = l :=
          Fin.le_antisymm (hitem hx) (Fin.not_lt.mp (hruns.2 x l hx))
        rw [hx] at huntil
        exact Or.inr ⟨x, rfl, huntil⟩

/-- Names with commas behind them, up to the end of the file: the comma behind the second name is
    missing, and that is further on than the place where the file would have to end. -/
theorem manyUntil_agrees_with_many_behind_name :
    let ts := (tokenize "a, b c").tokens
    let item : Parser ts (Token × Token) := both (token .ident) (token .comma)
    (∀ {i j x}, item i = .ok (x, j) → i ≤ j) ∧
      both (many item) (token .eof) 0 = .error (Place.failure "end of file" (2 : Place ts)) ∧
      manyUntil item (token .eof) 0 = .error (Place.failure "','" (3 : Place ts)) := by
  intro ts item
  have hitem : ∀ {i j x}, item i = .ok (x, j) → i ≤ j :=
    ((Onward.token _).bind fun _ => (Onward.token _).bind fun _ => .pure _).le
  have hboth : both (many item) (token .eof) 0 =
      .error (Place.failure "end of file" (2 : Place ts)) := by
    decide +kernel
  have hstop : (manyFrom item 0).2 = 2 := by decide +kernel
  have hmissing : item 2 = .error (Place.failure "','" (3 : Place ts)) := by decide +kernel
  obtain ⟨-, hfails, -⟩ := manyUntil_agrees_with_many item (token .eof) hitem 0
  obtain ⟨xs, k, hmany, -, hreport⟩ := hfails _ hboth
  obtain rfl : 2 = k := hstop.symm.trans (congrArg Prod.snd (Except.ok.inj hmany))
  rcases hreport with ⟨g, hg, huntil⟩ | ⟨x, hx, -⟩
  · obtain rfl := Except.error.inj (hmissing.symm.trans hg)
    have hfurther : (Place.failure "end of file" (2 : Place ts)).offset <
        (Place.failure "','" (3 : Place ts)).offset := by
      decide +kernel
    exact ⟨hitem, hboth, huntil.trans (congrArg Except.error (if_pos hfurther))⟩
  · rw [hmissing] at hx
    cases hx

end TarnLang.Parser
