/-
  TarnLang/Proofs/Parser/Choice.lean
  ==================================
  **Ordered choice and its groups.**  Of two failures the one that got further is kept, the later
  one where both got equally far.  That is associative, and so is the choice between two parsers
  that reports by it.  A choice among several is a row of choices between two, in whichever of
  its two forms it is written, so it does not matter how its alternatives are grouped.

  `Chosen` says without the loops what a choice gives: the result of the first alternative that
  succeeds, or the last one of the failures that got furthest.
-/
import TarnLang.Parser.Choice

namespace TarnLang

theorem ParseFailure.furthest_assoc (a b c : ParseFailure) :
    (a.furthest b).furthest c = a.furthest (b.furthest c) := by
  by_cases hab : a.offset ≤ b.offset
  · rw [furthest_of_le hab]
    by_cases hbc : b.offset ≤ c.offset
    · rw [furthest_of_le hbc, furthest_of_le (Nat.le_trans hab hbc)]
    · rw [furthest_of_lt (Nat.not_le.mp hbc), furthest_of_le hab]
  · have hba := Nat.not_le.mp hab
    rw [furthest_of_lt hba]
    by_cases hbc : b.offset ≤ c.offset
    · rw [furthest_of_le hbc]
    · have hcb := Nat.not_le.mp hbc
      rw [furthest_of_lt hcb, furthest_of_lt hba, furthest_of_lt (Nat.lt_trans hcb hba)]

namespace Parser

variable {ts : Array Token} {α : Type} {i : Place ts}

/-! ### Rows of choices -/

theorem orElse_of_ok {p q : Parser ts α} {r : α × Place ts} (h : p i = .ok r) :
    (p <|> q) i = .ok r := by
  show Parser.orElse p q i = .ok r
  rw [Parser.orElse, h]

/-- Where the first parser fails, the second one is tried, and the furthest failure kept. -/
theorem orElse_of_error {p q : Parser ts α} {e : ParseFailure} (h : p i = .error e) :
    (p <|> q) i = (q i).mapError e.furthest := by
  show Parser.orElse p q i = _
  rw [Parser.orElse, h]
  cases q i <;> rfl

theorem orElse_assoc (p q r : Parser ts α) : ((p <|> q) <|> r) = (p <|> (q <|> r)) := by
  funext i
  cases hp : p i with
  | ok s => rw [orElse_of_ok (orElse_of_ok hp), orElse_of_ok hp]
  | error e =>
    have hpq := orElse_of_error (q := q) hp
    rw [orElse_of_error hp]
    cases hq : q i with
    | ok s =>
      rw [hq] at hpq
      rw [orElse_of_ok hpq, orElse_of_ok hq]
      rfl
    | error e' =>
      rw [hq] at hpq
      rw [orElse_of_error hpq, orElse_of_error hq]
      cases r i with
      | ok s => rfl
      | error e'' => exact congrArg Except.error (e.furthest_assoc e' e'')

/-- The failure that is carried along may as well be compared at the end. -/
theorem anyBehind_furthest (best e : ParseFailure) (ps : List (Parser ts α)) (i : Place ts) :
    anyBehind (best.furthest e) ps i = (anyBehind e ps i).mapError best.furthest := by
  induction ps generalizing e with
  | nil => rfl
  | cons p ps ih =>
    rw [anyBehind, anyBehind]
    cases p i with
    | ok r => rfl
    | error e' =>
      simp only
      rw [ParseFailure.furthest_assoc, ih]

theorem anyOf_nil (p : Parser ts α) : anyOf p [] = p := by
  funext i
  rw [anyOf]
  cases p i <;> rfl

theorem anyOf_cons (p q : Parser ts α) (qs : List (Parser ts α)) :
    anyOf p (q :: qs) = (p <|> anyOf q qs) := by
  funext i
  cases hp : p i with
  | ok r => rw [anyOf, hp, orElse_of_ok hp]
  | error e =>
    rw [anyOf, hp, orElse_of_error hp]
    simp only [anyBehind, anyOf]
    cases q i with
    | ok r => rfl
    | error e' => exact anyBehind_furthest e e' qs i

/-- A row of choices in a row of choices is part of the row. -/
theorem anyOf_append (p q : Parser ts α) (ps qs : List (Parser ts α)) :
    anyOf p (ps ++ q :: qs) = (anyOf p ps <|> anyOf q qs) := by
  induction ps generalizing p with
  | nil => rw [List.nil_append, anyOf_cons, anyOf_nil]
  | cons r ps ih => rw [List.cons_append, anyOf_cons, anyOf_cons, ih, orElse_assoc]

/-- A failure to report that may not be there yet is one that is there, behind the first. -/
theorem anyAfter_some (best : ParseFailure) (ps : List (Parser ts α)) (i : Place ts) :
    anyAfter (some best) ps i = anyBehind best ps i := by
  induction ps generalizing best with
  | nil => rfl
  | cons p ps ih =>
    rw [anyAfter, anyBehind]
    cases p i with
    | ok r => rfl
    | error e => exact ih (best.furthest e)

theorem any_cons (p : Parser ts α) (ps : List (Parser ts α)) : any (p :: ps) = anyOf p ps := by
  funext i
  rw [any, anyAfter, anyOf]
  cases p i with
  | ok r => rfl
  | error e => exact anyAfter_some e ps i

/-! ### What a choice gives -/

/-- What a choice among alternatives gives at a place. -/
inductive Chosen (i : Place ts) (ps : List (Parser ts α)) : Outcome ts α → Prop
  /-- The result of the first alternative that succeeds. -/
  | first (before : List (Parser ts α)) {after : List (Parser ts α)} {p : Parser ts α}
      {r : α × Place ts} (split : ps = before ++ p :: after) (succeeds : p i = .ok r)
      (earlier : ∀ q ∈ before, ∃ e, q i = .error e) : Chosen i ps (.ok r)
  /-- Where all fail, the last one of the failures that got furthest. -/
  | furthest (before : List (Parser ts α)) {after : List (Parser ts α)} {p : Parser ts α}
      {f : ParseFailure} (split : ps = before ++ p :: after) (fails : p i = .error f)
      (earlier : ∀ q ∈ before, ∃ e, q i = .error e ∧ e.offset ≤ f.offset)
      (later : ∀ q ∈ after, ∃ e, q i = .error e ∧ e.offset < f.offset) : Chosen i ps (.error f)

namespace Chosen

variable {p q : Parser ts α} {ps : List (Parser ts α)} {r r' : Outcome ts α}

/-- A failure is chosen where all alternatives fail, no further than there. -/
theorem fails {f : ParseFailure} (h : Chosen i ps (.error f)) (hq : q ∈ ps) :
    ∃ e, q i = .error e ∧ e.offset ≤ f.offset := by
  obtain _ | ⟨before, rfl, hp, hearlier, hlater⟩ := h
  rcases List.mem_append.mp hq with hq | hq
  · exact hearlier q hq
  · rcases List.mem_cons.mp hq with rfl | hq
    · exact ⟨f, hp, Nat.le_refl _⟩
    · obtain ⟨e, he, hlt⟩ := hlater q hq
      exact ⟨e, he, Nat.le_of_lt hlt⟩

/-- One more alternative in front of the others. -/
theorem orElse (p : Parser ts α) (h : Chosen i ps (q i)) : Chosen i (p :: ps) ((p <|> q) i) := by
  cases hp : p i with
  | ok s =>
    rw [orElse_of_ok hp]
    exact .first [] rfl hp fun _ hnil => absurd hnil List.not_mem_nil
  | error e =>
    rw [orElse_of_error hp]
    generalize q i = r at h
    cases h with
    | @first before after p' s hsplit hs hearlier =>
      refine .first (p :: before) (congrArg (p :: ·) hsplit) hs fun q' hq' => ?_
      rcases List.mem_cons.mp hq' with rfl | hq'
      · exact ⟨e, hp⟩
      · exact hearlier q' hq'
    | @furthest before after p' f hsplit hf hearlier hlater =>
      show Chosen i (p :: ps) (.error (e.furthest f))
      by_cases hle : e.offset ≤ f.offset
      · rw [ParseFailure.furthest_of_le hle]
        refine .furthest (p :: before) (congrArg (p :: ·) hsplit) hf (fun q' hq' => ?_)
          hlater
        rcases List.mem_cons.mp hq' with rfl | hq'
        · exact ⟨e, hp, hle⟩
        · exact hearlier q' hq'
      · -- the first failure got further than all that follow
        have hlt := Nat.not_le.mp hle
        rw [ParseFailure.furthest_of_lt hlt]
        refine .furthest [] rfl hp (fun _ hnil => absurd hnil List.not_mem_nil)
          fun q' hq' => ?_
        obtain ⟨e', he', hle'⟩ := fails (.furthest before hsplit hf hearlier hlater) hq'
        exact ⟨e', he', Nat.lt_of_le_of_lt hle' hlt⟩

/-- Of two places in a list, one is that of the other, in front of it or behind it. -/
theorem split_cases {before before' after after' : List (Parser ts α)}
    (h : before ++ p :: after = before' ++ q :: after') :
    p = q ∨ (p ∈ before' ∧ q ∈ after) ∨ (q ∈ before ∧ p ∈ after') := by
  rcases List.append_eq_append_iff.mp h with ⟨m, rfl, hm⟩ | ⟨m, rfl, hm⟩
  · cases m with
    | nil => exact Or.inl (List.cons.inj hm).1
    | cons r m =>
      obtain ⟨rfl, rfl⟩ := List.cons.inj hm
      exact Or.inr (Or.inl ⟨by simp, by simp⟩)
  · cases m with
    | nil => exact Or.inl (List.cons.inj hm).1.symm
    | cons r m =>
      obtain ⟨rfl, rfl⟩ := List.cons.inj hm
      exact Or.inr (Or.inr ⟨by simp, by simp⟩)

theorem ok_unique {s s' : α × Place ts} (h : Chosen i ps (.ok s)) (h' : Chosen i ps (.ok s')) :
    s = s' := by
  obtain ⟨before, hsplit, hp, hearlier⟩ | _ := h
  obtain ⟨before', hsplit', hp', hearlier'⟩ | _ := h'
  rcases split_cases (hsplit.symm.trans hsplit') with rfl | ⟨hmem, -⟩ | ⟨hmem, -⟩
  · exact Except.ok.inj (hp.symm.trans hp')
  · obtain ⟨e, he⟩ := hearlier' _ hmem
    cases hp.symm.trans he
  · obtain ⟨e, he⟩ := hearlier _ hmem
    cases hp'.symm.trans he

theorem error_unique {f f' : ParseFailure} (h : Chosen i ps (.error f))
    (h' : Chosen i ps (.error f')) : f = f' := by
  obtain _ | ⟨before, hsplit, hp, hearlier, hlater⟩ := h
  obtain _ | ⟨before', hsplit', hp', hearlier', hlater'⟩ := h'
  rcases split_cases (hsplit.symm.trans hsplit') with rfl | ⟨hmem, hmem'⟩ | ⟨hmem', hmem⟩
  · exact Except.error.inj (hp.symm.trans hp')
  · -- the first one would have got no further than the second, and further
    obtain ⟨e, he, hle⟩ := hearlier' _ hmem
    obtain ⟨e', he', hlt⟩ := hlater _ hmem'
    obtain rfl := Except.error.inj (hp.symm.trans he)
    obtain rfl := Except.error.inj (hp'.symm.trans he')
    exact absurd hle (Nat.not_le.mpr hlt)
  · obtain ⟨e, he, hle⟩ := hearlier _ hmem'
    obtain ⟨e', he', hlt⟩ := hlater' _ hmem
    obtain rfl := Except.error.inj (hp'.symm.trans he)
    obtain rfl := Except.error.inj (hp.symm.trans he')
    exact absurd hle (Nat.not_le.mpr hlt)

theorem not_error {s : α × Place ts} {f : ParseFailure} (h : Chosen i ps (.ok s)) :
    ¬ Chosen i ps (.error f) := by
  intro h'
  obtain ⟨before, rfl, hp, -⟩ | _ := h
  obtain ⟨e, he, -⟩ := h'.fails (List.mem_append_right _ (List.mem_cons_self ..))
  cases hp.symm.trans he

/-- No more than one outcome is chosen. -/
theorem unique (h : Chosen i ps r) (h' : Chosen i ps r') : r = r' := by
  cases r with
  | ok s =>
    cases r' with
    | ok s' => exact congrArg Except.ok (h.ok_unique h')
    | error f' => exact absurd h' h.not_error
  | error f =>
    cases r' with
    | ok s' => exact absurd h h'.not_error
    | error f' => exact congrArg Except.error (h.error_unique h')

end Chosen

theorem chosen_anyOf (p : Parser ts α) (ps : List (Parser ts α)) (i : Place ts) :
    Chosen i (p :: ps) (anyOf p ps i) := by
  induction ps generalizing p with
  | nil =>
    rw [anyOf_nil]
    cases hp : p i with
    | ok r => exact .first [] rfl hp fun _ hnil => absurd hnil List.not_mem_nil
    | error f =>
      exact .furthest [] rfl hp (fun _ hnil => absurd hnil List.not_mem_nil)
        fun _ hnil => absurd hnil List.not_mem_nil
  | cons q ps ih =>
    rw [anyOf_cons]
    exact (ih q).orElse p

/-- **Ordered choice does not depend on how its alternatives are grouped.**  Both forms of a
    choice give what is chosen, the first success or the last of the furthest failures, and so
    does a choice between groups, be it a choice among several or one between two. -/
theorem any_grouped (p q : Parser ts α) (ps qs : List (Parser ts α)) (i : Place ts) :
    any (p :: ps) i = anyOf p ps i ∧
    (∀ r, any (p :: ps) i = r ↔ Chosen i (p :: ps) r) ∧
    any ((p :: ps) ++ (q :: qs)) i = any [any (p :: ps), any (q :: qs)] i ∧
    any ((p :: ps) ++ (q :: qs)) i = (any (p :: ps) <|> any (q :: qs)) i := by
  have hgroups : any ((p :: ps) ++ (q :: qs)) = (any (p :: ps) <|> any (q :: qs)) := by
    rw [List.cons_append, any_cons, anyOf_append, any_cons, any_cons]
  have hpair : any [any (p :: ps), any (q :: qs)] = (any (p :: ps) <|> any (q :: qs)) := by
    rw [any_cons, anyOf_cons, anyOf_nil]
  have hchosen : Chosen i (p :: ps) (any (p :: ps) i) := by
    rw [any_cons]
    exact chosen_anyOf p ps i
  refine ⟨congrFun (any_cons p ps) i, fun r => ⟨?_, hchosen.unique⟩,
    congrFun (hgroups.trans hpair.symm) i, congrFun hgroups i⟩
  rintro rfl
  exact hchosen

end Parser

end TarnLang
