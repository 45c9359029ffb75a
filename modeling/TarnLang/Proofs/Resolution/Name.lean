/-
  TarnLang/Proofs/Resolution/Name.lean
  ====================================
  **Names that can be told apart.**  The path of a scope and a name in it are written as one
  string, with `::` in between.  Nothing is lost by that as long as no part of the path
  holds two colons in a row or ends in a colon: then the first `::` of the string is the
  first that was put there.  Words hold no colon at all, and the name of a scope after a
  construct and a position holds one, in front of the column.
-/
import TarnLang.Lexeme
import TarnLang.Resolution.Walk

namespace TarnLang

/-! ### Parts of a path -/

/-- A string of letters, digits and underscores. -/
def IsWord (s : String) : Prop := ∀ c ∈ s.toList, isWordRest c = true

instance : DecidablePred IsWord := fun s =>
  decidable_of_iff (s.toList.all isWordRest = true) List.all_eq_true

/-- Every colon is followed by another character. -/
def Segment (cs : List Char) : Prop := ∀ u v, cs = u ++ ':' :: v → ∃ c w, v = c :: w ∧ c ≠ ':'

theorem IsWord.not_mem {s : String} (h : IsWord s) {c : Char} (hc : isWordRest c = false) :
    c ∉ s.toList := by
  intro hmem
  rw [h c hmem] at hc
  cases hc

theorem segment_of_not_mem {a : List Char} (h : ':' ∉ a) : Segment a := by
  rintro u v rfl
  exact absurd (List.mem_append_right u (List.mem_cons_self ..)) h

/-- A segment stays one with more characters in front that are no colons. -/
theorem Segment.append {a b : List Char} (hb : Segment b) (ha : ':' ∉ a) : Segment (a ++ b) := by
  intro u v h
  rcases List.append_eq_append_iff.mp h with ⟨m, -, hm⟩ | ⟨m, hm, hrest⟩
  · exact hb m v hm
  · cases m with
    | nil => exact hb [] v hrest.symm
    | cons c m =>
      obtain ⟨rfl, -⟩ := List.cons.inj hrest
      refine absurd ?_ ha
      rw [hm]
      exact List.mem_append_right u (List.mem_cons_self ..)

theorem segment_colon {d : List Char} (hd : d ≠ []) (hnone : ':' ∉ d) : Segment (':' :: d) := by
  intro u v h
  cases u with
  | nil =>
    obtain ⟨-, rfl⟩ := List.cons.inj h
    obtain ⟨c, w, rfl⟩ := List.exists_cons_of_ne_nil hd
    exact ⟨c, w, rfl, fun hc => hnone (hc ▸ List.mem_cons_self ..)⟩
  | cons c u =>
    obtain ⟨-, rfl⟩ := List.cons.inj h
    exact absurd (List.mem_append_right u (List.mem_cons_self ..)) hnone

theorem Segment.ne_append {a b s : List Char} (ha : Segment a) : a ≠ b ++ ':' :: ':' :: s := by
  intro h
  obtain ⟨c, w, hc, hne⟩ := ha b (':' :: s) h
  exact hne (List.cons.inj hc).1.symm

/-- The first two colons behind a segment are those that end it. -/
theorem Segment.split {a b r s : List Char} (ha : Segment a) (hb : Segment b)
    (h : a ++ ':' :: ':' :: r = b ++ ':' :: ':' :: s) : a = b ∧ r = s := by
  -- what the longer one has more would have to start with the two colons
  have hlonger : ∀ {x y m p q : List Char}, Segment x → x = y ++ m →
      ':' :: ':' :: p = m ++ ':' :: ':' :: q → m = [] := by
    intro x y m p q hx hxy hm
    cases m with
    | nil => rfl
    | cons c m =>
      obtain ⟨rfl, hbehind⟩ := List.cons.inj hm
      obtain ⟨d, w, hw, hne⟩ := hx y m hxy
      rw [hw] at hbehind
      exact absurd (List.cons.inj hbehind).1 hne.symm
  rcases List.append_eq_append_iff.mp h with ⟨m, hm, hrest⟩ | ⟨m, hm, hrest⟩
  · obtain rfl := hlonger hb hm hrest
    rw [List.append_nil] at hm
    simp only [List.nil_append, List.cons.injEq, true_and] at hrest
    exact ⟨hm.symm, hrest⟩
  · obtain rfl := hlonger ha hm hrest
    rw [List.append_nil] at hm
    simp only [List.nil_append, List.cons.injEq, true_and] at hrest
    exact ⟨hm, hrest.symm⟩

/-- Segments that were joined can be told apart again. -/
theorem intercalate_injective {l m : List (List Char)} (hl : ∀ a ∈ l, Segment a)
    (hm : ∀ a ∈ m, Segment a) (hl_ne : l ≠ []) (hm_ne : m ≠ [])
    (h : [':', ':'].intercalate l = [':', ':'].intercalate m) : l = m := by
  induction l generalizing m with
  | nil => exact absurd rfl hl_ne
  | cons a l ih =>
    obtain ⟨b, m, rfl⟩ := List.exists_cons_of_ne_nil hm_ne
    have ha := hl a (List.mem_cons_self ..)
    have hb := hm b (List.mem_cons_self ..)
    cases l with
    | nil =>
      cases m with
      | nil =>
        rw [List.intercalate_singleton, List.intercalate_singleton] at h
        rw [h]
      | cons b' m =>
        rw [List.intercalate_singleton, List.intercalate_cons_cons, List.append_assoc] at h
        exact absurd h ha.ne_append
    | cons a' l =>
      cases m with
      | nil =>
        rw [List.intercalate_singleton, List.intercalate_cons_cons, List.append_assoc] at h
        exact absurd h.symm hb.ne_append
      | cons b' m =>
        rw [List.intercalate_cons_cons, List.intercalate_cons_cons, List.append_assoc,
          List.append_assoc] at h
        obtain ⟨rfl, hrest⟩ := ha.split hb h
        have hl' : ∀ x ∈ a' :: l, Segment x := fun x hx => hl x (List.mem_cons_of_mem _ hx)
        have hm' : ∀ x ∈ b' :: m, Segment x := fun x hx => hm x (List.mem_cons_of_mem _ hx)
        rw [ih hl' hm' (List.cons_ne_nil _ _) (List.cons_ne_nil _ _) hrest]

/-! ### Names of scopes -/

/-- Strings are told apart by what stands in front of the first character of a kind and by what
    stands behind it. -/
theorem eq_of_append_cons {c : Char} {a b r s : List Char} (ha : c ∉ a) (hb : c ∉ b)
    (h : a ++ c :: r = b ++ c :: s) : a = b ∧ r = s := by
  have hlonger : ∀ {x y m p q : List Char}, c ∉ x → x = y ++ m → c :: p = m ++ c :: q → m = [] := by
    intro x y m p q hx hxy hm
    cases m with
    | nil => rfl
    | cons d m =>
      obtain ⟨rfl, -⟩ := List.cons.inj hm
      rw [hxy] at hx
      exact absurd (List.mem_append_right y (List.mem_cons_self ..)) hx
  rcases List.append_eq_append_iff.mp h with ⟨m, hm, hrest⟩ | ⟨m, hm, hrest⟩
  · obtain rfl := hlonger hb hm hrest
    rw [List.append_nil] at hm
    exact ⟨hm.symm, (List.cons.inj hrest).2⟩
  · obtain rfl := hlonger ha hm hrest
    rw [List.append_nil] at hm
    exact ⟨hm, (List.cons.inj hrest).2.symm⟩

theorem not_mem_repr {c : Char} (hc : c.isDigit = false) (n : Nat) : c ∉ n.repr.toList := by
  intro h
  rw [Nat.toList_repr] at h
  rw [Nat.isDigit_of_mem_toDigits (by decide) (by decide) h] at hc
  cases hc

theorem repr_toList_injective {n m : Nat} (h : n.repr.toList = m.repr.toList) : n = m := by
  rw [Nat.toList_repr, Nat.toList_repr] at h
  rw [← Nat.ofDigitChars_ten_toDigits (n := n), h, Nat.ofDigitChars_ten_toDigits]

theorem Position.toList_display (p : Position) :
    p.display.toList = p.line.toNat.repr.toList ++ ':' :: p.column.toNat.repr.toList := by
  simp [Position.display]

/-- Positions are told apart by how they are written. -/
theorem Position.display_injective {p q : Position} (h : p.display = q.display) : p = q := by
  have hlist := congrArg String.toList h
  rw [toList_display, toList_display] at hlist
  have hnone : ∀ n : Nat, ':' ∉ n.repr.toList := not_mem_repr (by decide)
  obtain ⟨hline, hcolumn⟩ := eq_of_append_cons (hnone _) (hnone _) hlist
  obtain ⟨pl, pc⟩ := p
  obtain ⟨ql, qc⟩ := q
  obtain rfl := UInt32.toNat_inj.mp (repr_toList_injective hline)
  obtain rfl := UInt32.toNat_inj.mp (repr_toList_injective hcolumn)
  rfl

/-- Name of a scope after a word and a position. -/
def placedName (base : String) (p : Position) : String := base ++ "@" ++ p.display

theorem toList_placedName (base : String) (p : Position) :
    (placedName base p).toList = base.toList ++ '@' :: p.display.toList := by
  simp [placedName]

theorem at_mem_placedName (base : String) (p : Position) : '@' ∈ (placedName base p).toList := by
  rw [toList_placedName]
  exact List.mem_append_right _ (List.mem_cons_self ..)

theorem placedName_injective {a b : String} {p q : Position} (ha : IsWord a) (hb : IsWord b)
    (h : placedName a p = placedName b q) : p = q := by
  have hlist := congrArg String.toList h
  rw [toList_placedName, toList_placedName] at hlist
  have hat := eq_of_append_cons (ha.not_mem (by decide)) (hb.not_mem (by decide)) hlist
  exact Position.display_injective (String.toList_inj.mp hat.2)

theorem IsWord.segment {s : String} (h : IsWord s) : Segment s.toList :=
  segment_of_not_mem (h.not_mem (by decide))

theorem IsWord.segment_placedName {base : String} (h : IsWord base) (p : Position) :
    Segment (placedName base p).toList := by
  have hnone : ∀ n : Nat, ':' ∉ n.repr.toList := not_mem_repr (by decide)
  have hcolumn : Segment (':' :: p.column.toNat.repr.toList) := by
    refine segment_colon ?_ (hnone _)
    rw [Nat.toList_repr]
    exact Nat.toDigits_ne_nil
  have hfront : ':' ∉ base.toList ++ '@' :: p.line.toNat.repr.toList := by
    intro hmem
    rcases List.mem_append.mp hmem with hmem | hmem
    · exact h.not_mem (by decide) hmem
    · rcases List.mem_cons.mp hmem with heq | hmem
      · exact absurd heq (by decide)
      · exact hnone _ hmem
  have hwhole := hcolumn.append hfront
  rw [List.append_assoc] at hwhole
  rw [toList_placedName, Position.toList_display]
  exact hwhole

/-- Names that were joined to one string can be told apart again. -/
theorem join_injective {l m : List String} (hl : ∀ a ∈ l, Segment a.toList)
    (hm : ∀ a ∈ m, Segment a.toList) (hl_ne : l ≠ []) (hm_ne : m ≠ [])
    (h : String.intercalate "::" l = String.intercalate "::" m) : l = m := by
  have hlist := congrArg String.toList h
  rw [String.toList_intercalate, String.toList_intercalate] at hlist
  have hmap := intercalate_injective (List.forall_mem_map.mpr hl) (List.forall_mem_map.mpr hm)
    (mt List.map_eq_nil_iff.mp hl_ne) (mt List.map_eq_nil_iff.mp hm_ne) hlist
  exact (List.map_inj_right fun _ _ => String.toList_inj.mp).mp hmap

end TarnLang
