/-
  TarnLang/Proofs/Resolution/Arena.lean
  =====================================
  **Whatever is done to a scope tree, it is a tree in preorder.**  A tree is built by edits:
  scopes are opened and left, and names are bound.  Parents, lists of children and numbers
  say the same thing three times, and every edit keeps them in step.

  That scopes are numbered in preorder rests on the scopes around the current one: in each of
  them, the child that was opened last is the current scope or stands around it as well.  So a
  scope that is opened comes behind everything that was there, and a traversal along the lists
  of children meets it last.
-/
import Mathlib.Data.List.Basic
import TarnLang.Proofs.Resolution.ScopeTree

namespace TarnLang

namespace ScopeTree

variable {t t' : ScopeTree} {i j p a b : Nat} {s : Scope} {n : String}

/-! ### Edits -/

/-- What changes a tree.  Lookups do not. -/
inductive Edit
  | opens (name : String) (kind : ScopeKind)
  | leaves
  | binds (name : String) (id : SymbolId)
deriving Repr

def edit (t : ScopeTree) : Edit → ScopeTree
  | .opens name kind => t.push name kind
  | .leaves => t.pop
  | .binds name id => (t.define name id).2

/-- What edits make of the tree with the outermost scope alone. -/
def built (edits : List Edit) : ScopeTree := edits.foldl edit fresh

/-! ### Parents and children -/

/-- Number of the scope around a scope. -/
def parent? (t : ScopeTree) (i : ScopeId) : Option ScopeId := (t.get? i).bind (·.parent)

/-- Numbers of the scopes directly inside a scope, as it lists them. -/
def inner (t : ScopeTree) (i : ScopeId) : List ScopeId :=
  ((t.get? i).map fun s => s.children.toList).getD []

theorem get?_of_not_lt (h : ¬ i < t.size) : t.get? i = none :=
  Array.getElem?_eq_none (Nat.le_of_not_lt h)

theorem parent?_eq (h : t.get? i = some s) : t.parent? i = s.parent := by
  rw [parent?, h]
  rfl

theorem inner_of_get? (h : t.get? i = some s) : t.inner i = s.children.toList := by
  rw [inner, h]
  rfl

theorem WellFormed.parent?_lt (ht : t.WellFormed) (h : t.parent? i = some p) :
    p < i ∧ i < t.size := by
  obtain ⟨s, hs, hp⟩ := Option.bind_eq_some_iff.mp h
  exact ⟨ht.parent_lt hs hp, lt_of_get? hs⟩

theorem WellFormed.exists_parent? (ht : t.WellFormed) (h : i < t.size) (hi : i ≠ root) :
    ∃ p, t.parent? i = some p := by
  obtain ⟨s, hs⟩ := get?_of_lt h
  cases hp : s.parent with
  | none => exact absurd (ht.eq_root hs hp) hi
  | some p => exact ⟨p, (parent?_eq hs).trans hp⟩

theorem parent?_push (ht : t.WellFormed) (name : String) (kind : ScopeKind) (i : Nat) :
    (t.push name kind).parent? i = if i = t.size then some t.current else t.parent? i := by
  by_cases hi : i = t.size
  · subst hi
    rw [parent?_eq (get?_push_size ht name kind), if_pos rfl]
  · rw [if_neg hi]
    by_cases hlt : i < t.size
    · rw [parent?, get?_push_of_lt hlt, parent?]
      cases t.get? i with
      | none => rfl
      | some s =>
        show Scope.parent (if _ then _ else _) = _
        split
        · rfl
        · rfl
    · have hnew : ¬ i < (t.push name kind).size := by
        rw [size_push]
        omega
      rw [parent?, get?_of_not_lt hnew, parent?, get?_of_not_lt hlt]

theorem inner_push (ht : t.WellFormed) (name : String) (kind : ScopeKind) (i : Nat) :
    (t.push name kind).inner i = t.inner i ++ if i = t.current then [t.size] else [] := by
  by_cases hlt : i < t.size
  · obtain ⟨s, hs⟩ := get?_of_lt hlt
    rw [inner, get?_push_of_lt hlt, hs, inner_of_get? hs]
    by_cases hi : t.current = i
    · simp [hi]
    · simp [hi, Ne.symm hi]
  · have hcurrent : i ≠ t.current := by
      rintro rfl
      exact hlt ht.current_lt
    rw [if_neg hcurrent, List.append_nil, inner, inner, get?_of_not_lt hlt]
    by_cases hi : i = t.size
    · rw [hi, get?_push_size ht]
      rfl
    · have hnew : ¬ i < (t.push name kind).size := by
        rw [size_push]
        omega
      rw [get?_of_not_lt hnew]

theorem parent?_define (t : ScopeTree) (name : String) (id : SymbolId) (i : ScopeId) :
    (t.define name id).2.parent? i = t.parent? i := by
  rw [parent?, get?_define, parent?]
  cases t.get? i with
  | none => rfl
  | some s =>
    show Scope.parent (if _ then _ else _) = _
    split
    · rfl
    · rfl

theorem inner_define (t : ScopeTree) (name : String) (id : SymbolId) (i : ScopeId) :
    (t.define name id).2.inner i = t.inner i := by
  rw [inner, get?_define, inner]
  cases t.get? i with
  | none => rfl
  | some s =>
    show (Scope.children (if _ then _ else _)).toList = _
    split
    · rfl
    · rfl

/-- Leaving a scope moves to its parent, if it has one, and changes nothing else. -/
theorem pop_eq_of_parent? (t : ScopeTree) :
    t.pop = ⟨t.scopes, (t.parent? t.current).getD t.current⟩ := by
  unfold pop parent?
  cases (t.get? t.current).bind (·.parent) with
  | none => rfl
  | some p => rfl

theorem get?_pop (t : ScopeTree) (i : Nat) : t.pop.get? i = t.get? i := by
  rw [pop_eq_of_parent?]
  rfl

theorem size_pop (t : ScopeTree) : t.pop.size = t.size := by
  rw [pop_eq_of_parent?]
  rfl

theorem current_pop (t : ScopeTree) : t.pop.current = (t.parent? t.current).getD t.current := by
  rw [pop_eq_of_parent?]

theorem skeleton?_pop (t : ScopeTree) (i : Nat) : t.pop.skeleton? i = t.skeleton? i := by
  rw [skeleton?, get?_pop, skeleton?]

theorem WellFormed.pop (ht : t.WellFormed) : t.pop.WellFormed := by
  refine ht.of_skeleton (skeleton?_pop t) ?_
  rw [size_pop, current_pop]
  cases hp : t.parent? t.current with
  | none => exact ht.current_lt
  | some p => exact Nat.lt_trans (ht.parent?_lt hp).1 ht.current_lt

/-! ### Around a scope -/

/-- The first scope is the second one or stands around it. -/
inductive Around (t : ScopeTree) : ScopeId → ScopeId → Prop
  | self {i : ScopeId} : Around t i i
  | outside {a i p : ScopeId} : t.parent? i = some p → Around t a p → Around t a i

namespace Around

/-- What stands around a scope is the scope or stands around its parent. -/
theorem cases_parent (h : t.Around a i) : a = i ∨ ∃ p, t.parent? i = some p ∧ t.Around a p := by
  cases h with
  | self => exact Or.inl rfl
  | outside hp ha => exact Or.inr ⟨_, hp, ha⟩

theorem le (ht : t.WellFormed) (h : t.Around a i) : a ≤ i := by
  induction h with
  | self => exact Nat.le_refl _
  | outside hp _ ih => exact Nat.le_trans ih (Nat.le_of_lt (ht.parent?_lt hp).1)

/-- With a scope, its parent stands around. -/
theorem parent (h : t.Around a i) (hp : t.parent? a = some p) : t.Around p i := by
  induction h with
  | self => exact .outside hp .self
  | outside hq _ ih => exact .outside hq ih

theorem root (ht : t.WellFormed) (hi : i < t.size) : t.Around root i := by
  induction i using Nat.strongRecOn with
  | ind i ih =>
    by_cases hroot : i = ScopeTree.root
    · subst hroot
      exact .self
    · obtain ⟨p, hp⟩ := ht.exists_parent? hi hroot
      have hlt := (ht.parent?_lt hp).1
      exact .outside hp (ih p hlt (Nat.lt_trans hlt hi))

/-- No two scopes around a scope are side by side. -/
theorem eq_of_parent (ht : t.WellFormed) (ha : t.Around a i) (hb : t.Around b i)
    (hpa : t.parent? a = some p) (hpb : t.parent? b = some p) : a = b := by
  -- what stands around a parent is not inside it
  have houter : ∀ {c}, t.Around c p → t.parent? c = some p → False := by
    intro c hc hcp
    exact absurd (hc.le ht) (Nat.not_le_of_lt (ht.parent?_lt hcp).1)
  induction ha with
  | self =>
    rcases hb.cases_parent with rfl | ⟨q, hq, hb⟩
    · rfl
    · obtain rfl := Option.some.inj (hq.symm.trans hpa)
      exact (houter hb hpb).elim
  | outside hq ha ih =>
    rcases hb.cases_parent with rfl | ⟨q, hq', hb⟩
    · obtain rfl := Option.some.inj (hq.symm.trans hpb)
      exact (houter ha hpa).elim
    · obtain rfl := Option.some.inj (hq.symm.trans hq')
      exact ih hb

/-- Where all scopes have their parents still, the same scopes stand around. -/
theorem mono (hparent : ∀ i p, t.parent? i = some p → t'.parent? i = some p)
    (h : t.Around a i) : t'.Around a i := by
  induction h with
  | self => exact .self
  | outside hp _ ih => exact .outside (hparent _ _ hp) ih

/-- Around the scopes that were there before nothing changes when one is opened. -/
theorem push (ht : t.WellFormed) (name : String) (kind : ScopeKind) (h : t.Around a i) :
    (t.push name kind).Around a i := by
  refine h.mono fun j p hp => ?_
  rw [parent?_push ht, if_neg (Nat.ne_of_lt (ht.parent?_lt hp).2)]
  exact hp

theorem of_push (ht : t.WellFormed) {name : String} {kind : ScopeKind} (hi : i < t.size)
    (h : (t.push name kind).Around a i) : t.Around a i := by
  induction h with
  | self => exact .self
  | outside hp _ ih =>
    rw [parent?_push ht, if_neg (Nat.ne_of_lt hi)] at hp
    have hlt := Nat.lt_trans (ht.parent?_lt hp).1 hi
    exact .outside hp (ih hlt)

end Around

/-! ### Traversal -/

/-- Numbers of a scope and of all scopes inside it, in the order of a traversal that is at most
    `levels` deep. -/
def numbers (t : ScopeTree) : Nat → ScopeId → List ScopeId
  | 0, _ => []
  | levels + 1, i =>
    if i < t.size then i :: (t.inner i).flatMap (t.numbers levels) else []

theorem numbers_succ (hi : i < t.size) (levels : Nat) :
    t.numbers (levels + 1) i = i :: (t.inner i).flatMap (t.numbers levels) := by
  rw [numbers, if_pos hi]

/-- A listing meets the scopes with these numbers. -/
theorem map_id_listing (ht : t.WellFormed) (levels depth : Nat) (i : ScopeId) :
    (t.listing levels depth i).map (·.2.id) = t.numbers levels i := by
  induction levels generalizing depth i with
  | zero => rfl
  | succ levels ih =>
    rw [listing, numbers]
    cases hs : t.get? i with
    | none =>
      have hlt : ¬ i < t.size := by
        intro hlt
        obtain ⟨s, hs'⟩ := get?_of_lt hlt
        rw [hs] at hs'
        cases hs'
      rw [if_neg hlt]
      rfl
    | some s =>
      rw [if_pos (lt_of_get? hs), inner_of_get? hs]
      simp only [List.map_cons, List.map_flatMap, ht.id_eq hs, ih]

theorem get?_of_mem_listing (ht : t.WellFormed) {levels depth : Nat} {row : Nat × Scope}
    (h : row ∈ t.listing levels depth i) : t.get? row.2.id = some row.2 := by
  induction levels generalizing depth i with
  | zero => cases h
  | succ levels ih =>
    rw [listing] at h
    cases hs : t.get? i with
    | none =>
      rw [hs] at h
      cases h
    | some s =>
      rw [hs] at h
      rcases List.mem_cons.mp h with rfl | h
      · show t.get? s.id = some s
        rw [ht.id_eq hs, hs]
      · obtain ⟨c, -, hc⟩ := List.mem_flatMap.mp h
        exact ih hc

theorem numbers_congr (hsize : t'.size = t.size) (hinner : ∀ i, t'.inner i = t.inner i) :
    t'.numbers = t.numbers := by
  funext levels
  induction levels with
  | zero => rfl
  | succ levels ih =>
    funext i
    rw [numbers, numbers, hsize, hinner, ih]

/-! ### The invariant -/

/-- Numbers, parents and lists of children are in step, and a traversal meets the scopes in
    the order of their numbers. -/
structure Preordered (t : ScopeTree) : Prop where
  tree : t.WellFormed
  inner_eq : ∀ i, t.inner i = (List.range t.size).filter fun j => t.parent? j = some i
  last_open : ∀ i, t.Around i t.current → i ≠ t.current →
    ∃ front c, t.inner i = front ++ [c] ∧ t.Around c t.current
  numbers_eq : t.numbers t.size root = List.range t.size

namespace Preordered

theorem mem_inner (h : t.Preordered) : j ∈ t.inner i ↔ t.parent? j = some i := by
  rw [h.inner_eq, List.mem_filter, List.mem_range, decide_eq_true_iff]
  constructor
  · exact And.right
  · intro hp
    exact ⟨(h.tree.parent?_lt hp).2, hp⟩

theorem nodup_inner (h : t.Preordered) (i : ScopeId) : (t.inner i).Nodup := by
  rw [h.inner_eq]
  exact List.nodup_range.filter _

/-- Inside the current scope nothing stands around it. -/
theorem not_around_of_inner (h : t.Preordered) (hj : j ∈ t.inner t.current) :
    ¬ t.Around j t.current := by
  intro haround
  have hlt := (h.tree.parent?_lt (h.mem_inner.mp hj)).1
  exact absurd (haround.le h.tree) (Nat.not_le_of_lt hlt)

/-- Of the scopes directly inside one around the current scope, only the last one stands around
    it as well. -/
theorem exists_only_open (h : t.Preordered) (hin : t.Around i t.current) (hne : i ≠ t.current) :
    ∃ front c, t.inner i = front ++ [c] ∧ t.Around c t.current ∧
      ∀ d ∈ front, ¬ t.Around d t.current := by
  obtain ⟨front, c, hsplit, hc⟩ := h.last_open i hin hne
  have hparent : ∀ d ∈ front ++ [c], t.parent? d = some i := by
    rw [← hsplit]
    exact fun d hd => h.mem_inner.mp hd
  have hpc := hparent c (List.mem_append_right _ (List.mem_singleton_self c))
  refine ⟨front, c, hsplit, hc, fun d hd hd' => ?_⟩
  obtain rfl := hd'.eq_of_parent h.tree hc (hparent d (List.mem_append_left _ hd)) hpc
  have hnodup := h.nodup_inner i
  rw [hsplit] at hnodup
  exact (List.nodup_append.mp hnodup).2.2 d hd d (List.mem_singleton_self d) rfl

theorem fresh : fresh.Preordered := by
  refine ⟨wellFormed_fresh, ?_, ?_, rfl⟩
  · intro i
    cases i with
    | zero => rfl
    | succ i => rfl
  · intro i hi hne
    rcases hi.cases_parent with rfl | ⟨p, hp, -⟩
    · exact absurd rfl hne
    · cases hp

/-! #### Opening a scope -/

/-- Where the current scope is not inside, the traversal stays what it was. -/
theorem numbers_push_of_not_around (h : t.Preordered) (name : String) (kind : ScopeKind)
    {levels : Nat} (hi : i < t.size) (hlevels : t.size - i ≤ levels)
    (hout : ¬ t.Around i t.current) :
    (t.push name kind).numbers (levels + 1) i = t.numbers levels i := by
  induction levels generalizing i with
  | zero => omega
  | succ levels ih =>
    have hne : i ≠ t.current := by
      rintro rfl
      exact hout .self
    have hi' : i < (t.push name kind).size := by
      rw [size_push]
      omega
    rw [numbers_succ hi', numbers_succ hi, inner_push h.tree, if_neg hne, List.append_nil]
    congr 1
    apply List.flatMap_congr
    intro c hc
    have hp := h.mem_inner.mp hc
    obtain ⟨hlt, hsize⟩ := h.tree.parent?_lt hp
    exact ih hsize (by omega) fun hin => hout (hin.parent hp)

theorem numbers_push_size (h : t.Preordered) (name : String) (kind : ScopeKind) (levels : Nat) :
    (t.push name kind).numbers (levels + 1) t.size = [t.size] := by
  have hsize : t.size < (t.push name kind).size := by
    rw [size_push]
    exact Nat.lt_succ_self _
  have hnothing : t.inner t.size = [] := by
    rw [inner, get?_of_not_lt (Nat.lt_irrefl _)]
    rfl
  have hne : t.size ≠ t.current := Nat.ne_of_gt h.tree.current_lt
  rw [numbers_succ hsize, inner_push h.tree, if_neg hne, hnothing]
  rfl

/-- Around the current scope, the scope that is opened comes last. -/
theorem numbers_push_of_around (h : t.Preordered) (name : String) (kind : ScopeKind)
    {levels : Nat} (hlevels : t.size - i ≤ levels) (hin : t.Around i t.current) :
    (t.push name kind).numbers (levels + 1) i = t.numbers levels i ++ [t.size] := by
  have hcurrent := h.tree.current_lt
  induction levels generalizing i with
  | zero =>
    have hi : i < t.size := Nat.lt_of_le_of_lt (hin.le h.tree) hcurrent
    omega
  | succ levels ih =>
    have hi : i < t.size := Nat.lt_of_le_of_lt (hin.le h.tree) hcurrent
    have hi' : i < (t.push name kind).size := by
      rw [size_push]
      omega
    rw [numbers_succ hi', numbers_succ hi, inner_push h.tree, List.cons_append]
    congr 1
    have hside : ∀ cs : List ScopeId, (∀ c ∈ cs, c ∈ t.inner i ∧ ¬ t.Around c t.current) →
        cs.flatMap ((t.push name kind).numbers (levels + 1)) = cs.flatMap (t.numbers levels) := by
      intro cs hcs
      apply List.flatMap_congr
      intro c hc
      obtain ⟨hinner, hout⟩ := hcs c hc
      obtain ⟨hlt, hsize⟩ := h.tree.parent?_lt (h.mem_inner.mp hinner)
      exact h.numbers_push_of_not_around name kind hsize (by omega) hout
    by_cases hne : i = t.current
    · -- the new scope is behind all that are inside the current one
      subst hne
      have hinner := hside _ fun c hc => ⟨hc, h.not_around_of_inner hc⟩
      rw [if_pos rfl, List.flatMap_append, hinner, List.flatMap_singleton, h.numbers_push_size]
    · -- it is inside the last scope here, and none of the others
      obtain ⟨front, c, hsplit, hc, hothers⟩ := h.exists_only_open hin hne
      have hfront : ∀ d ∈ front, d ∈ t.inner i ∧ ¬ t.Around d t.current :=
        fun d hd => ⟨hsplit ▸ List.mem_append_left _ hd, hothers d hd⟩
      have hmem : c ∈ t.inner i := hsplit ▸ List.mem_append_right _ (List.mem_singleton_self c)
      have hlt := (h.tree.parent?_lt (h.mem_inner.mp hmem)).1
      have hlast := ih (by omega) hc
      rw [if_neg hne, List.append_nil, hsplit, List.flatMap_append, List.flatMap_append,
        hside front hfront, List.flatMap_singleton, List.flatMap_singleton, hlast,
        List.append_assoc]

theorem push (h : t.Preordered) (name : String) (kind : ScopeKind) :
    (t.push name kind).Preordered := by
  have hcurrent := h.tree.current_lt
  have hparent : (t.push name kind).parent? t.size = some t.current := by
    rw [parent?_push h.tree, if_pos rfl]
  refine ⟨h.tree.push name kind, ?_, ?_, ?_⟩
  · intro i
    -- the last number is that of the new scope; the others have the parents they had
    have hold : (List.range t.size).filter (fun j => (t.push name kind).parent? j = some i) =
        t.inner i := by
      rw [h.inner_eq]
      apply List.filter_congr
      intro j hj
      rw [parent?_push h.tree, if_neg (Nat.ne_of_lt (List.mem_range.mp hj))]
    rw [size_push, List.range_succ, List.filter_append, hold, inner_push h.tree]
    congr 1
    by_cases hi : i = t.current
    · simp [hparent, hi]
    · simp [hparent, hi, Ne.symm hi]
  · intro i hi hne
    show ∃ front c, _ ∧ (t.push name kind).Around c t.size
    rcases hi.cases_parent with rfl | ⟨p, hp, hi⟩
    · exact absurd rfl hne
    · obtain rfl := Option.some.inj (hp.symm.trans hparent)
      rw [inner_push h.tree]
      by_cases heq : i = t.current
      · exact ⟨t.inner i, t.size, by rw [if_pos heq], .self⟩
      · obtain ⟨front, c, hsplit, hc⟩ := h.last_open i (hi.of_push h.tree hcurrent) heq
        refine ⟨front, c, ?_, .outside hparent (hc.push h.tree name kind)⟩
        rw [if_neg heq, List.append_nil, hsplit]
  · have hroot := Around.root h.tree hcurrent
    rw [size_push, h.numbers_push_of_around name kind (Nat.sub_le ..) hroot, h.numbers_eq,
      List.range_succ]

/-! #### Leaving a scope and binding a name -/

/-- A tree with the same parents and children is in preorder as well, if its current scope is
    one that still is open. -/
theorem of_inner (h : t.Preordered) (htree : t'.WellFormed) (hsize : t'.size = t.size)
    (hparent : ∀ i, t'.parent? i = t.parent? i) (hinner : ∀ i, t'.inner i = t.inner i)
    (hopen : ∀ i, t.Around i t'.current → i ≠ t'.current →
      ∃ front c, t.inner i = front ++ [c] ∧ t.Around c t'.current) : t'.Preordered := by
  refine ⟨htree, ?_, ?_, ?_⟩
  · intro i
    rw [hinner, hsize, h.inner_eq]
    simp only [hparent]
  · intro i hi hne
    obtain ⟨front, c, hsplit, hc⟩ := hopen i (hi.mono fun j p hp => hparent j ▸ hp) hne
    exact ⟨front, c, (hinner i).trans hsplit, hc.mono fun j p hp => (hparent j).trans hp⟩
  · rw [numbers_congr hsize hinner, hsize]
    exact h.numbers_eq

theorem pop (h : t.Preordered) : t.pop.Preordered := by
  have hparent : ∀ i, t.pop.parent? i = t.parent? i := fun i => by rw [parent?, get?_pop, parent?]
  have hinner : ∀ i, t.pop.inner i = t.inner i := fun i => by rw [inner, get?_pop, inner]
  refine h.of_inner h.tree.pop (size_pop t) hparent hinner ?_
  rw [current_pop]
  cases hp : t.parent? t.current with
  | none => exact h.last_open
  | some p =>
    intro i hi hne
    -- the current scope no longer stands around, but it is inside the new current one
    have hlt := Nat.lt_of_le_of_lt (hi.le h.tree) (h.tree.parent?_lt hp).1
    obtain ⟨front, c, hsplit, hc⟩ := h.last_open i (.outside hp hi) (Nat.ne_of_lt hlt)
    refine ⟨front, c, hsplit, ?_⟩
    rcases hc.cases_parent with rfl | ⟨q, hq, hc⟩
    · have hpc : t.parent? t.current = some i := by
        rw [← h.mem_inner, hsplit]
        exact List.mem_append_right _ (List.mem_singleton_self _)
      exact absurd (Option.some.inj (hpc.symm.trans hp)) hne
    · obtain rfl := Option.some.inj (hp.symm.trans hq)
      exact hc

theorem define (h : t.Preordered) (name : String) (id : SymbolId) :
    (t.define name id).2.Preordered := by
  refine h.of_inner (h.tree.define name id) (size_define t name id) (parent?_define t name id)
    (inner_define t name id) ?_
  rw [current_define]
  exact h.last_open

theorem edit (h : t.Preordered) (e : Edit) : (t.edit e).Preordered := by
  cases e with
  | opens name kind => exact h.push name kind
  | leaves => exact h.pop
  | binds name id => exact h.define name id

/-- **Every tree that is built is in preorder.** -/
theorem built (edits : List Edit) : (built edits).Preordered := by
  have hfold : ∀ (edits : List Edit) {t : ScopeTree}, t.Preordered →
      (edits.foldl ScopeTree.edit t).Preordered := by
    intro edits
    induction edits with
    | nil => exact fun h => h
    | cons e edits ih => exact fun h => ih (h.edit e)
  exact hfold edits fresh

/-- A traversal along the lists of children meets every scope once, in the order of numbers. -/
theorem preorder_eq (h : t.Preordered) : t.preorder.map (·.2) = t.scopes.toList := by
  have hids : (t.preorder.map (·.2)).map (·.id) = List.range t.size := by
    rw [List.map_map, ← h.numbers_eq]
    exact map_id_listing h.tree t.size 0 root
  have hscopes : (List.range t.size).map t.get? = t.scopes.toList.map some := by
    apply List.ext_getElem
    · simp [size]
    · intro i hi hi'
      simp [get?]
  have hmet : (t.preorder.map (·.2)).map (fun s => t.get? s.id) =
      (t.preorder.map (·.2)).map some := by
    apply List.map_congr_left
    intro s hs
    obtain ⟨row, hrow, rfl⟩ := List.mem_map.mp hs
    exact get?_of_mem_listing h.tree hrow
  have hsome : (t.preorder.map (·.2)).map some = t.scopes.toList.map some := by
    rw [← hmet, ← hscopes, ← hids, List.map_map (g := t.get?)]
    rfl
  exact (List.map_inj_right fun _ _ => Option.some.inj).mp hsome

end Preordered

/-! ### Looking outwards -/

/-- The way outwards, one scope after another: from a number to the scope that has it, from
    there to its parent, until no scope has the number or there is none. -/
inductive Climbs (t : ScopeTree) : Option ScopeId → List Scope → Prop
  | ends {next : Option ScopeId} : next.bind t.get? = none → Climbs t next []
  | visits {next : Option ScopeId} {s : Scope} {rest : List Scope} :
      next.bind t.get? = some s → Climbs t s.parent rest → Climbs t next (s :: rest)

/-- The way outwards ends, wherever it starts. -/
theorem climbs_outward (ht : t.WellFormed) (i : Nat) : t.Climbs (some i) (t.outward i) := by
  induction i using Nat.strongRecOn with
  | ind i ih =>
    cases hs : t.get? i with
    | none =>
      rw [outward, hs]
      exact .ends hs
    | some s =>
      rw [outward_eq ht hs]
      have hnext : (some i).bind t.get? = some s := hs
      refine .visits hnext ?_
      cases hp : s.parent with
      | none => exact .ends rfl
      | some p => exact ih p (ht.parent_lt hs hp)

theorem lookupFrom_step (ht : t.WellFormed) (i : Nat) (n : String) :
    t.lookupFrom i n = (t.binding? i n).or ((t.parent? i).bind (t.lookupFrom · n)) := by
  rw [lookupFrom, binding?, parent?]
  cases hs : t.get? i with
  | none =>
    rw [outward, hs]
    rfl
  | some s =>
    rw [outward_eq ht hs, List.findSome?_cons]
    cases hb : s.binding? n with
    | some id => simp [hb]
    | none =>
      cases hp : s.parent with
      | none => simp [hb, hp]
      | some p => simp [hb, hp, lookupFrom]

/-- Where a lookup finds nothing, no scope around binds the name. -/
theorem binding?_of_lookupFrom_eq_none (ht : t.WellFormed) (h : t.lookupFrom i n = none)
    (ha : t.Around a i) : t.binding? a n = none := by
  induction ha with
  | self =>
    rw [lookupFrom_step ht, Option.or_eq_none_iff] at h
    exact h.1
  | outside hp _ ih =>
    rw [lookupFrom_step ht, Option.or_eq_none_iff, hp] at h
    exact ih h.2

/-- What a lookup finds is bound in a scope around, and any other scope around that binds the
    name stands further out. -/
theorem exists_nearest (ht : t.WellFormed) {id : SymbolId} (h : t.lookupFrom i n = some id) :
    ∃ a, t.Around a i ∧ t.binding? a n = some id ∧
      ∀ b, t.Around b i → (t.binding? b n).isSome → t.Around b a := by
  induction i using Nat.strongRecOn with
  | ind i ih =>
    rw [lookupFrom_step ht] at h
    cases hb : t.binding? i n with
    | some id' =>
      rw [hb] at h
      exact ⟨i, .self, hb.trans h, fun b hbi _ => hbi⟩
    | none =>
      rw [hb, Option.none_or] at h
      obtain ⟨p, hp, h⟩ := Option.bind_eq_some_iff.mp h
      obtain ⟨a, ha, hbound, hnearest⟩ := ih p (ht.parent?_lt hp).1 h
      refine ⟨a, .outside hp ha, hbound, ?_⟩
      intro b hbi hsome
      rcases hbi.cases_parent with rfl | ⟨q, hq, hbq⟩
      · rw [hb] at hsome
        cases hsome
      · obtain rfl := Option.some.inj (hp.symm.trans hq)
        exact hnearest b hbq hsome

/-- **A lookup finds the binding of the nearest scope that has one.** -/
theorem lookupFrom_eq_some_iff (ht : t.WellFormed) {id : SymbolId} :
    t.lookupFrom i n = some id ↔
      ∃ a, t.Around a i ∧ t.binding? a n = some id ∧
        ∀ b, t.Around b i → (t.binding? b n).isSome → t.Around b a := by
  constructor
  · exact exists_nearest ht
  · rintro ⟨a, ha, hbound, hnearest⟩
    cases hfound : t.lookupFrom i n with
    | none =>
      rw [binding?_of_lookupFrom_eq_none ht hfound ha] at hbound
      cases hbound
    | some id' =>
      -- of two nearest scopes each stands around the other, so they are one
      obtain ⟨a', ha', hbound', hnearest'⟩ := exists_nearest ht hfound
      have hle := (hnearest a' ha' (by rw [hbound']; rfl)).le ht
      have hge := (hnearest' a ha (by rw [hbound]; rfl)).le ht
      obtain rfl := Nat.le_antisymm hle hge
      exact hbound'.symm.trans hbound

theorem lookupFrom_eq_none_iff (ht : t.WellFormed) :
    t.lookupFrom i n = none ↔ ∀ a, t.Around a i → t.binding? a n = none := by
  constructor
  · exact fun h a ha => binding?_of_lookupFrom_eq_none ht h ha
  · intro h
    cases hfound : t.lookupFrom i n with
    | none => rfl
    | some id =>
      obtain ⟨a, ha, hbound, -⟩ := exists_nearest ht hfound
      rw [h a ha] at hbound
      cases hbound

/-! ### What edits leave alone -/

/-- The scopes of the first tree are in the second one: with their numbers, names, kinds and
    parents, and with all that they bind. -/
def Keeps (t t' : ScopeTree) : Prop :=
  ∀ i s, t.get? i = some s → ∃ s', t'.get? i = some s' ∧ s'.id = s.id ∧ s'.name = s.name ∧
    s'.kind = s.kind ∧ s'.parent = s.parent ∧
      ∀ n id, s.binding? n = some id → s'.binding? n = some id

theorem keeps_push (t : ScopeTree) (name : String) (kind : ScopeKind) :
    t.Keeps (t.push name kind) := by
  intro i s hs
  rw [get?_push_of_lt (lt_of_get? hs), hs]
  refine ⟨_, rfl, ?_⟩
  split
  · exact ⟨rfl, rfl, rfl, rfl, fun _ _ h => h⟩
  · exact ⟨rfl, rfl, rfl, rfl, fun _ _ h => h⟩

theorem keeps_pop (t : ScopeTree) : t.Keeps t.pop := by
  intro i s hs
  rw [get?_pop]
  exact ⟨s, hs, rfl, rfl, rfl, rfl, fun _ _ h => h⟩

theorem keeps_define (t : ScopeTree) (name : String) (id : SymbolId) :
    t.Keeps (t.define name id).2 := by
  intro i s hs
  rw [get?_define, hs]
  refine ⟨_, rfl, ?_⟩
  split
  · rename_i hnew
    refine ⟨rfl, rfl, rfl, rfl, ?_⟩
    intro n id' h
    -- a name that is bound already is another one
    have hne : n ≠ name := by
      rintro rfl
      have hbound : t.binding? i n = some id' := by
        rw [binding?, hs]
        exact h
      rw [hnew.2] at hbound
      cases hbound
    have hbeq : (n == name) = false := beq_eq_false_iff_ne.mpr hne
    show List.lookup n ((name, id) :: s.bindings) = some id'
    rw [List.lookup_cons, hbeq]
    exact h
  · exact ⟨rfl, rfl, rfl, rfl, fun _ _ h => h⟩

theorem keeps_edit (t : ScopeTree) (e : Edit) : t.Keeps (t.edit e) := by
  cases e with
  | opens name kind => exact t.keeps_push name kind
  | leaves => exact t.keeps_pop
  | binds name id => exact t.keeps_define name id

/-! ### All trees -/

/-- How scopes, their numbers, their parents and their children fit together, and what is found
    in them. -/
structure Orderly (t : ScopeTree) : Prop where
  id_eq : ∀ i s, t.get? i = some s → s.id = i
  parent_eq_none : ∀ i s, t.get? i = some s → (s.parent = none ↔ i = root)
  parent_lt : ∀ i s p, t.get? i = some s → s.parent = some p → p < i
  children_eq : ∀ i s, t.get? i = some s →
    s.children.toList = (List.range t.size).filter fun j => t.parent? j = some i
  current_lt : t.current < t.size
  root_around : t.Around root t.current
  preorder_eq : t.preorder.map (·.2) = t.scopes.toList
  climbs : ∀ i, ∃ way, t.Climbs (some i) way ∧ t.path i = (way.map (·.name)).reverse ∧
    ∀ n, t.lookupFrom i n = way.findSome? (·.binding? n)
  lookupFrom_eq_some : ∀ i n id, t.lookupFrom i n = some id ↔
    ∃ a, t.Around a i ∧ t.binding? a n = some id ∧
      ∀ b, t.Around b i → (t.binding? b n).isSome → t.Around b a
  lookupFrom_eq_none : ∀ i n, t.lookupFrom i n = none ↔ ∀ a, t.Around a i → t.binding? a n = none

theorem Preordered.orderly (h : t.Preordered) : t.Orderly where
  id_eq _ _ hs := h.tree.id_eq hs
  parent_eq_none i s hs := by
    refine ⟨h.tree.eq_root hs, ?_⟩
    rintro rfl
    cases hp : s.parent with
    | none => rfl
    | some p => exact absurd (h.tree.parent_lt hs hp) (Nat.not_lt_zero p)
  parent_lt _ _ _ hs hp := h.tree.parent_lt hs hp
  children_eq i s hs := by rw [← inner_of_get? hs, h.inner_eq]
  current_lt := h.tree.current_lt
  root_around := .root h.tree h.tree.current_lt
  preorder_eq := h.preorder_eq
  climbs i := ⟨t.outward i, climbs_outward h.tree i, rfl, fun _ => rfl⟩
  lookupFrom_eq_some _ _ _ := lookupFrom_eq_some_iff h.tree
  lookupFrom_eq_none _ _ := lookupFrom_eq_none_iff h.tree

/-- **A scope tree is orderly, however it was built,** and a further edit leaves the scopes that
    are there and what they bind as they are; the root is not left. -/
theorem built_orderly (edits : List Edit) :
    (built edits).Orderly ∧ (∀ e, (built edits).Keeps ((built edits).edit e)) ∧
      ((built edits).current = root → (built edits).pop = built edits) := by
  have hpreordered := Preordered.built edits
  refine ⟨hpreordered.orderly, keeps_edit _, ?_⟩
  intro hroot
  rw [pop_eq_of_parent?, hroot]
  cases hp : (built edits).parent? root with
  | none => rw [← hroot]; rfl
  | some p => exact absurd (hpreordered.tree.parent?_lt hp).1 (Nat.not_lt_zero p)

/-- Two scopes side by side, both left again: leaving once more changes nothing. -/
theorem built_side_by_side :
    let t := built [.opens "f" .callable, .leaves, .opens "g" .callable, .leaves]
    t.current = root ∧ t.pop = t ∧ t.preorder.map (·.2) = t.scopes.toList ∧
      t.scopes.toList.map (·.name) = ["global", "f", "g"] :=
  have h := built_orderly [.opens "f" .callable, .leaves, .opens "g" .callable, .leaves]
  ⟨rfl, h.2.2 rfl, h.1.preorder_eq, rfl⟩

end ScopeTree

end TarnLang
