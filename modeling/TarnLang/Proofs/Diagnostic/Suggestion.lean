/-
  TarnLang/Proofs/Diagnostic/Suggestion.lean
  ==========================================
  **The name suggested is the first of the closest.**  A candidate may be suggested when it is
  another name and not too far away for the length of the name that was looked for.  Taking
  candidates into account one by one keeps the first of the closest that were seen (`Best`), so what
  is left in the end is the first of the closest of all, and nothing when none may be suggested.

  Names whose lengths differ by more than the limit are passed over without their distance.  That
  loses none, because two names are as far apart as their lengths, or farther.

  Only ties depend on the order of the candidates.  As long as the closest ones are all one name,
  that name is suggested for every order, and so the order in which a table lists its symbols does
  not show.
-/
import TarnLang.Diagnostic.OfError
import TarnLang.Proofs.Diagnostic.Distance

namespace TarnLang

/-! ### Candidates -/

def nameDistance (name candidate : String) : Nat := levenshtein name.toList candidate.toList

/-- A candidate that may be suggested for a name. -/
structure Admissible (name candidate : String) : Prop where
  ne : candidate ≠ name
  near : nameDistance name candidate ≤ maxDistance name.length

/-- The first of the closest candidates: those in front of it that may be suggested are farther
    away, and those behind it no closer. -/
structure FirstClosest (name : String) (candidates : List String) (winner : String) : Prop where
  admissible : Admissible name winner
  split : ∃ before after, candidates = before ++ winner :: after ∧
    (∀ c ∈ before, Admissible name c → nameDistance name winner < nameDistance name c) ∧
    ∀ c ∈ after, Admissible name c → nameDistance name winner ≤ nameDistance name c

/-- One of the closest candidates. -/
structure Closest (name : String) (candidates : List String) (c : String) : Prop where
  mem : c ∈ candidates
  admissible : Admissible name c
  least : ∀ d ∈ candidates, Admissible name d → nameDistance name c ≤ nameDistance name d

variable {name candidate c d winner winner' : String} {candidates candidates' seen : List String}
variable {best : Option (String × Nat)}

theorem FirstClosest.closest (h : FirstClosest name candidates winner) :
    Closest name candidates winner := by
  obtain ⟨hadmissible, before, after, rfl, hbefore, hafter⟩ := h
  refine ⟨by simp, hadmissible, fun d hd hadmissible' => ?_⟩
  rcases List.mem_append.mp hd with hd | hd
  · exact Nat.le_of_lt (hbefore d hd hadmissible')
  · rcases List.mem_cons.mp hd with rfl | hd
    · exact Nat.le_refl _
    · exact hafter d hd hadmissible'

/-- Of two candidates that both are the first of the closest, neither stands in front. -/
theorem FirstClosest.unique (h : FirstClosest name candidates winner)
    (h' : FirstClosest name candidates winner') : winner = winner' := by
  have hle := h.closest.least winner' h'.closest.mem h'.admissible
  have hle' := h'.closest.least winner h.closest.mem h.admissible
  obtain ⟨hadmissible, before, after, hsplit, hbefore, -⟩ := h
  obtain ⟨hadmissible', before', after', hsplit', hbefore', -⟩ := h'
  have hsplits := hsplit.symm.trans hsplit'
  rcases List.append_eq_append_iff.mp hsplits with ⟨m, hm, hrest⟩ | ⟨m, hm, hrest⟩
  · cases m with
    | nil => exact (List.cons.inj hrest).1
    | cons x m =>
      obtain ⟨rfl, -⟩ := List.cons.inj hrest
      have hlt := hbefore' winner (by simp [hm]) hadmissible
      exact absurd hle (Nat.not_le.mpr hlt)
  · cases m with
    | nil => exact (List.cons.inj hrest).1.symm
    | cons x m =>
      obtain ⟨rfl, -⟩ := List.cons.inj hrest
      have hlt := hbefore winner' (by simp [hm]) hadmissible'
      exact absurd hle' (Nat.not_le.mpr hlt)

/-! ### One candidate more -/

/-- **Names are as far apart as their lengths, or farther.** -/
theorem length_apart_le (name candidate : String) :
    name.length - candidate.length + (candidate.length - name.length) ≤
      nameDistance name candidate := by
  have hlength := length_le_of_edits (edits_levenshtein name.toList candidate.toList)
  rw [String.length_toList, String.length_toList] at hlength
  unfold nameDistance
  omega

/-- A candidate becomes the best one when it may be suggested and is closer than the best so far. -/
theorem considerCandidate_cases (name : String) (best : Option (String × Nat)) (c : String) :
    (Admissible name c ∧ (∀ b ∈ best, nameDistance name c < b.2) ∧
      considerCandidate name best c = some (c, nameDistance name c)) ∨
    ((Admissible name c → ∃ b ∈ best, b.2 ≤ nameDistance name c) ∧
      considerCandidate name best c = best) := by
  have hlength := length_apart_le name c
  unfold considerCandidate
  dsimp only
  rw [editDistance_eq]
  split
  · rename_i hsame
    exact Or.inr ⟨fun h => absurd hsame h.ne, rfl⟩
  · rename_i hne
    split
    · rename_i hfar
      exact Or.inr ⟨fun h => absurd (Nat.le_trans hlength h.near) (Nat.not_le.mpr hfar), rfl⟩
    · split
      · rename_i hcloser
        refine Or.inl ⟨⟨hne, hcloser.1⟩, fun b hb => ?_, rfl⟩
        exact of_decide_eq_true ((Option.all_eq_true _ _).mp hcloser.2 b hb)
      · rename_i hcloser
        refine Or.inr ⟨fun h => ?_, rfl⟩
        by_contra hnone
        refine hcloser ⟨h.near, (Option.all_eq_true _ _).mpr fun b hb => decide_eq_true ?_⟩
        exact Nat.lt_of_not_le fun hle => hnone ⟨b, hb, hle⟩

/-- What is kept of the candidates seen: the first of the closest, with its distance. -/
inductive Best (name : String) (seen : List String) : Option (String × Nat) → Prop
  | none (h : ∀ c ∈ seen, ¬ Admissible name c) : Best name seen none
  | some {winner : String} (h : FirstClosest name seen winner) :
    Best name seen (some (winner, nameDistance name winner))

/-- A candidate that is closer than all in front of it is the first of the closest. -/
theorem FirstClosest.snoc (hc : Admissible name c)
    (hseen : ∀ d ∈ seen, Admissible name d → nameDistance name c < nameDistance name d) :
    FirstClosest name (seen ++ [c]) c :=
  ⟨hc, seen, [], rfl, hseen, fun _ hd => nomatch hd⟩

/-- A candidate that is no closer leaves the first of the closest what it is. -/
theorem FirstClosest.append (h : FirstClosest name seen winner)
    (hc : Admissible name c → nameDistance name winner ≤ nameDistance name c) :
    FirstClosest name (seen ++ [c]) winner := by
  obtain ⟨hadmissible, before, after, rfl, hbefore, hafter⟩ := h
  refine ⟨hadmissible, before, after ++ [c], by simp, hbefore, ?_⟩
  intro d hd
  rcases List.mem_append.mp hd with hd | hd
  · exact hafter d hd
  · rw [List.mem_singleton.mp hd]
    exact hc

theorem Best.consider (h : Best name seen best) (c : String) :
    Best name (seen ++ [c]) (considerCandidate name best c) := by
  rcases considerCandidate_cases name best c with ⟨hc, hcloser, heq⟩ | ⟨hnot, heq⟩
  · rw [heq]
    refine .some (.snoc hc fun d hd hadmissible => ?_)
    cases h with
    | none hnone => exact absurd hadmissible (hnone d hd)
    | some hbest =>
      exact Nat.lt_of_lt_of_le (hcloser _ rfl) (hbest.closest.least d hd hadmissible)
  · rw [heq]
    cases h with
    | none hnone =>
      refine .none fun d hd hadmissible => ?_
      rcases List.mem_append.mp hd with hd | hd
      · exact hnone d hd hadmissible
      · rw [List.mem_singleton.mp hd] at hadmissible
        obtain ⟨b, hb, -⟩ := hnot hadmissible
        cases hb
    | some hbest =>
      refine .some (hbest.append fun hc => ?_)
      obtain ⟨b, hb, hle⟩ := hnot hc
      cases hb
      exact hle

theorem Best.foldl (h : Best name seen best) (candidates : List String) :
    Best name (seen ++ candidates) (candidates.foldl (considerCandidate name) best) := by
  induction candidates generalizing seen best with
  | nil => simpa using h
  | cons c candidates ih => simpa using ih (h.consider c)

/-! ### All candidates -/

theorem closestCandidate_cases (name : String) (candidates : List String) :
    (closestCandidate name candidates = none ∧ ∀ c ∈ candidates, ¬ Admissible name c) ∨
      ∃ winner, closestCandidate name candidates = some winner ∧
        FirstClosest name candidates winner := by
  have hstart : Best name [] none := .none fun _ hc => nomatch hc
  have hbest := hstart.foldl candidates
  rw [List.nil_append] at hbest
  rw [closestCandidate]
  generalize candidates.foldl (considerCandidate name) none = best at hbest ⊢
  cases hbest with
  | none h => exact Or.inl ⟨rfl, h⟩
  | some h => exact Or.inr ⟨_, rfl, h⟩

/-- **The candidate that is left is the first of the closest.** -/
theorem closestCandidate_eq_some_iff :
    closestCandidate name candidates = some winner ↔ FirstClosest name candidates winner := by
  rcases closestCandidate_cases name candidates with ⟨heq, hnone⟩ | ⟨winner', heq, hfirst⟩
  · rw [heq]
    constructor
    · intro h
      cases h
    · exact fun h => absurd h.admissible (hnone winner h.closest.mem)
  · rw [heq, Option.some.injEq]
    constructor
    · rintro rfl
      exact hfirst
    · exact fun h => hfirst.unique h

theorem closestCandidate_eq_none_iff :
    closestCandidate name candidates = none ↔ ∀ c ∈ candidates, ¬ Admissible name c := by
  rcases closestCandidate_cases name candidates with ⟨heq, hnone⟩ | ⟨winner, heq, hfirst⟩
  · exact ⟨fun _ => hnone, fun _ => heq⟩
  · rw [heq]
    constructor
    · intro h
      cases h
    · exact fun h => absurd hfirst.admissible (h winner hfirst.closest.mem)

theorem Closest.perm (h : Closest name candidates c) (hperm : candidates.Perm candidates') :
    Closest name candidates' c :=
  ⟨hperm.mem_iff.mp h.mem, h.admissible, fun d hd => h.least d (hperm.mem_iff.mpr hd)⟩

/-- All closest candidates are one name. -/
def OneClosest (name : String) (candidates : List String) : Prop :=
  ∀ c d, Closest name candidates c → Closest name candidates d → c = d

/-- **Without ties the order of the candidates does not matter.** -/
theorem closestCandidate_perm (hone : OneClosest name candidates)
    (hperm : candidates.Perm candidates') :
    closestCandidate name candidates' = closestCandidate name candidates := by
  rcases closestCandidate_cases name candidates with ⟨heq, hnone⟩ | ⟨winner, heq, hfirst⟩
  · rw [heq, closestCandidate_eq_none_iff]
    exact fun c hc => hnone c (hperm.mem_iff.mpr hc)
  · rcases closestCandidate_cases name candidates' with ⟨heq', hnone⟩ | ⟨winner', heq', hfirst'⟩
    · exact absurd hfirst.admissible (hnone winner (hperm.mem_iff.mp hfirst.closest.mem))
    · rw [heq, heq', hone winner' winner (hfirst'.closest.perm hperm.symm) hfirst.closest]

/-- **In another order at most another of the closest candidates is suggested.** -/
theorem didYouMean_of_perm (name : String) (hperm : candidates.Perm candidates') :
    (didYouMean name candidates = none ∧ didYouMean name candidates' = none) ∨
      ∃ winner winner', Closest name candidates winner ∧ Closest name candidates winner' ∧
        didYouMean name candidates = some ("did you mean `" ++ winner ++ "`?") ∧
        didYouMean name candidates' = some ("did you mean `" ++ winner' ++ "`?") := by
  unfold didYouMean
  rcases closestCandidate_cases name candidates with ⟨heq, hnone⟩ | ⟨winner, heq, hfirst⟩
  · have heq' : closestCandidate name candidates' = none :=
      closestCandidate_eq_none_iff.mpr fun c hc => hnone c (hperm.mem_iff.mpr hc)
    rw [heq, heq']
    exact Or.inl ⟨rfl, rfl⟩
  · rcases closestCandidate_cases name candidates' with ⟨-, hnone⟩ | ⟨winner', heq', hfirst'⟩
    · exact absurd hfirst.admissible (hnone winner (hperm.mem_iff.mp hfirst.closest.mem))
    · rw [heq, heq']
      exact Or.inr ⟨winner, winner', hfirst.closest, hfirst'.closest.perm hperm.symm, rfl, rfl⟩

/-- **The suggestion names the first of the closest candidates**, and there is none just when no
    candidate may be suggested.  A candidate that is near enough is never passed over for its
    length.  When the closest candidates are all one name, their order does not matter, and neither
    does that of the symbols whose names are the candidates for a name that is declared nowhere. -/
theorem didYouMean_names_first_closest (name : String) (candidates : List String) :
    (∀ text, didYouMean name candidates = some text ↔
      ∃ winner, FirstClosest name candidates winner ∧
        text = "did you mean `" ++ winner ++ "`?") ∧
    (didYouMean name candidates = none ↔ ∀ c ∈ candidates, ¬ Admissible name c) ∧
    (∀ c, nameDistance name c ≤ maxDistance name.length →
      ¬ maxDistance name.length < name.length - c.length + (c.length - name.length)) ∧
    (OneClosest name candidates → ∀ candidates', candidates.Perm candidates' →
      didYouMean name candidates' = didYouMean name candidates) ∧
    ∀ (r r' : Resolution) (usage : Token), OneClosest usage.text r.names →
      r.names.Perm r'.names →
      r'.diagnosticFor (.useBeforeDefinition usage none) =
        r.diagnosticFor (.useBeforeDefinition usage none) := by
  refine ⟨fun text => ?_, ?_, fun c hc => ?_, fun hone candidates' hperm => ?_,
    fun r r' usage hone hperm => ?_⟩
  · rw [didYouMean, Option.map_eq_some_iff]
    constructor
    · rintro ⟨winner, hwinner, rfl⟩
      exact ⟨winner, closestCandidate_eq_some_iff.mp hwinner, rfl⟩
    · rintro ⟨winner, hwinner, rfl⟩
      exact ⟨winner, closestCandidate_eq_some_iff.mpr hwinner, rfl⟩
  · rw [didYouMean, Option.map_eq_none_iff, closestCandidate_eq_none_iff]
  · exact Nat.not_lt.mpr (Nat.le_trans (length_apart_le name c) hc)
  · rw [didYouMean, closestCandidate_perm hone hperm, didYouMean]
  · simp only [Resolution.diagnosticFor, didYouMean, closestCandidate_perm hone hperm]

/-- Of two candidates at distance one the first is suggested; with one candidate that is near
    enough, the order makes no difference. -/
theorem didYouMean_names_first_of_tie :
    FirstClosest "cat" ["cat", "cart", "bat"] "cart" ∧
      didYouMean "cat" ["cat", "cart", "bat"] = some "did you mean `cart`?" ∧
      OneClosest "count" ["value", "counts"] ∧
      didYouMean "count" ["counts", "value"] = didYouMean "count" ["value", "counts"] := by
  have hcart : nameDistance "cat" "cart" = 1 := by
    rw [nameDistance, ← editDistance_eq]
    decide +kernel
  have hbat : nameDistance "cat" "bat" = 1 := by
    rw [nameDistance, ← editDistance_eq]
    decide +kernel
  have hvalue : nameDistance "count" "value" = 5 := by
    rw [nameDistance, ← editDistance_eq]
    decide +kernel
  have hfirst : FirstClosest "cat" ["cat", "cart", "bat"] "cart" := by
    refine ⟨⟨by decide, hcart ▸ by decide⟩, ["cat"], ["bat"], rfl, ?_, ?_⟩
    · intro c hc hadmissible
      exact absurd (List.mem_singleton.mp hc) hadmissible.ne
    · intro c hc _
      rw [List.mem_singleton.mp hc, hcart, hbat]
  have hcounts : ∀ c, Closest "count" ["value", "counts"] c → c = "counts" := by
    intro c hc
    rcases List.mem_cons.mp hc.mem with rfl | hmem
    · exact absurd (hvalue ▸ hc.admissible.near) (by decide)
    · exact List.mem_singleton.mp hmem
  have hone : OneClosest "count" ["value", "counts"] := fun c d hc hd =>
    (hcounts c hc).trans (hcounts d hd).symm
  obtain ⟨hsome, -⟩ := didYouMean_names_first_closest "cat" ["cat", "cart", "bat"]
  obtain ⟨-, -, -, horder, -⟩ := didYouMean_names_first_closest "count" ["value", "counts"]
  exact ⟨hfirst, (hsome _).mpr ⟨"cart", hfirst, rfl⟩, hone, horder hone _ (.swap _ _ _)⟩

end TarnLang
