/-
  TarnLang/Proofs/Resolution/ScopeTree.lean
  =========================================
  **Scope trees.**  A tree is well formed when scopes are numbered by their place, parents
  have smaller numbers, and only the root has none.  Opening, leaving and binding keep
  that.  None of them touches the number, the name or the parent of a scope that was there
  before, its `skeleton`; so the path of a scope, once it is open, stays what it is.

  `ScopeTree.chain` lists the numbers of a scope and those around it.  A lookup asks these
  in turn.
-/
import TarnLang.Scope
import TarnLang.Proofs.Resolution.Name

namespace TarnLang

/-- What never changes about a scope: its number, its name and its parent. -/
def Scope.skeleton (s : Scope) : ScopeId × String × Option ScopeId := (s.id, s.name, s.parent)

namespace ScopeTree

variable {t t' : ScopeTree} {i j p : ScopeId} {s : Scope}

/-! ### Well-formed trees -/

structure WellFormed (t : ScopeTree) : Prop where
  id_eq : ∀ {i s}, t.get? i = some s → s.id = i
  parent_lt : ∀ {i s p}, t.get? i = some s → s.parent = some p → p < i
  eq_root : ∀ {i s}, t.get? i = some s → s.parent = none → i = root
  current_lt : t.current < t.size

/-- The skeleton of the scope with a given number. -/
def skeleton? (t : ScopeTree) (i : ScopeId) : Option (ScopeId × String × Option ScopeId) :=
  (t.get? i).map Scope.skeleton

/-- What a scope with a given number binds a name to. -/
def binding? (t : ScopeTree) (i : ScopeId) (name : String) : Option SymbolId :=
  (t.get? i).bind (·.binding? name)

/-- Numbers of a scope and of those around it, from the inside out. -/
def chain (t : ScopeTree) (i : ScopeId) : List ScopeId := (t.outward i).map (·.id)

theorem get?_of_lt (h : i < t.size) : ∃ s, t.get? i = some s :=
  ⟨_, Array.getElem?_eq_getElem h⟩

theorem lt_of_get? (h : t.get? i = some s) : i < t.size :=
  (Array.getElem?_eq_some_iff.mp h).1

/-- A fresh tree has the outermost scope and no other. -/
theorem eq_of_get?_fresh (h : fresh.get? i = some s) :
    i = root ∧ s = ⟨root, rootName, .root, none, #[], []⟩ := by
  obtain rfl : i = root := Nat.lt_one_iff.mp (lt_of_get? h)
  exact ⟨rfl, (Option.some.inj h).symm⟩

theorem binding?_fresh (i : ScopeId) (name : String) : fresh.binding? i name = none := by
  rw [binding?]
  cases h : fresh.get? i with
  | none => rfl
  | some s =>
    obtain ⟨rfl, rfl⟩ := eq_of_get?_fresh h
    rfl

theorem wellFormed_fresh : fresh.WellFormed := by
  refine ⟨?_, ?_, ?_, Nat.zero_lt_one⟩
  · intro i s h
    obtain ⟨rfl, rfl⟩ := eq_of_get?_fresh h
    rfl
  · intro i s p h hp
    obtain ⟨rfl, rfl⟩ := eq_of_get?_fresh h
    cases hp
  · intro i s h _
    exact (eq_of_get?_fresh h).1

/-! ### Looking outwards -/

theorem outward_eq (ht : t.WellFormed) (h : t.get? i = some s) :
    t.outward i = s :: (s.parent.map t.outward).getD [] := by
  rw [outward, h]
  cases hp : s.parent with
  | none => simp [hp]
  | some p =>
    have hlt := ht.parent_lt h hp
    simp [hp, hlt]

theorem chain_eq (ht : t.WellFormed) (h : t.get? i = some s) :
    t.chain i = i :: (s.parent.map t.chain).getD [] := by
  rw [chain, outward_eq ht h, List.map_cons, ht.id_eq h]
  cases s.parent with
  | none => rfl
  | some p => rfl

theorem path_eq (ht : t.WellFormed) (h : t.get? i = some s) :
    t.path i = (s.parent.map t.path).getD [] ++ [s.name] := by
  rw [path, outward_eq ht h, List.map_cons, List.reverse_cons]
  cases s.parent with
  | none => rfl
  | some p => rfl

/-- Every scope that is met on the way outwards is the one with its number. -/
theorem get?_of_mem_outward (ht : t.WellFormed) (h : s ∈ t.outward i) : t.get? s.id = some s := by
  induction i using Nat.strongRecOn with
  | ind i ih =>
    cases hi : t.get? i with
    | none =>
      rw [outward, hi] at h
      cases h
    | some s' =>
      rw [outward_eq ht hi] at h
      rcases List.mem_cons.mp h with rfl | h
      · rw [ht.id_eq hi, hi]
      · cases hp : s'.parent with
        | none =>
          rw [hp] at h
          cases h
        | some p =>
          rw [hp] at h
          exact ih p (ht.parent_lt hi hp) h

theorem findSome?_congr {α β : Type} {l : List α} {f g : α → Option β} (h : ∀ a ∈ l, f a = g a) :
    l.findSome? f = l.findSome? g := by
  induction l with
  | nil => rfl
  | cons a l ih =>
    have hrest := ih fun b hb => h b (List.mem_cons_of_mem a hb)
    rw [List.findSome?_cons, List.findSome?_cons, h a (List.mem_cons_self ..), hrest]

/-- **A lookup asks the scopes of the chain in turn.** -/
theorem lookupFrom_eq (ht : t.WellFormed) (i : ScopeId) (name : String) :
    t.lookupFrom i name = (t.chain i).findSome? (t.binding? · name) := by
  rw [lookupFrom, chain, List.findSome?_map]
  refine findSome?_congr ?_
  intro s hs
  simp [binding?, get?_of_mem_outward ht hs]

/-- Where all scopes up to a number are alike, so is the way outwards. -/
theorem map_skeleton_outward (h : ∀ j ≤ i, t'.skeleton? j = t.skeleton? j) :
    (t'.outward i).map Scope.skeleton = (t.outward i).map Scope.skeleton := by
  induction i using Nat.strongRecOn with
  | ind i ih =>
    have hi := h i (Nat.le_refl i)
    rw [outward, outward]
    cases hs : t.get? i with
    | none =>
      cases hs' : t'.get? i with
      | none => rfl
      | some s' => simp [skeleton?, hs, hs'] at hi
    | some s =>
      cases hs' : t'.get? i with
      | none => simp [skeleton?, hs, hs'] at hi
      | some s' =>
        simp only [skeleton?, hs, hs', Option.map_some, Option.some.injEq] at hi
        have hparent : s'.parent = s.parent := congrArg (fun x => x.2.2) hi
        simp only [hparent]
        cases s.parent with
        | none => simp [hi]
        | some p =>
          by_cases hlt : p < i
          · have hrest := ih p hlt fun j hj => h j (Nat.le_trans hj (Nat.le_of_lt hlt))
            simp [hlt, hi, hrest]
          · simp [hlt, hi]

theorem path_congr (h : ∀ j ≤ i, t'.skeleton? j = t.skeleton? j) : t'.path i = t.path i := by
  have hmap := congrArg (List.map fun x => x.2.1) (map_skeleton_outward h)
  rw [List.map_map, List.map_map] at hmap
  exact congrArg List.reverse hmap

theorem chain_congr (h : ∀ j ≤ i, t'.skeleton? j = t.skeleton? j) : t'.chain i = t.chain i := by
  have hmap := congrArg (List.map fun x => x.1) (map_skeleton_outward h)
  rw [List.map_map, List.map_map] at hmap
  exact hmap

/-! ### Opening -/

theorem size_push (t : ScopeTree) (name : String) (kind : ScopeKind) :
    (t.push name kind).size = t.size + 1 := by
  simp [push, size]

/-- The scope that is opened last. -/
theorem get?_push_size (ht : t.WellFormed) (name : String) (kind : ScopeKind) :
    (t.push name kind).get? t.size = some ⟨t.size, name, kind, some t.current, #[], []⟩ := by
  have hne : t.current ≠ t.scopes.size := Nat.ne_of_lt ht.current_lt
  show ((t.scopes.push _).modify t.current _)[t.scopes.size]? = _
  rw [Array.getElem?_modify, if_neg hne, Array.getElem?_push_size, size]

/-- A scope that was there before at most gets one more child. -/
theorem get?_push_of_lt (h : i < t.size) (name : String) (kind : ScopeKind) :
    (t.push name kind).get? i = (t.get? i).map fun s =>
      if t.current = i then { s with children := s.children.push t.size } else s := by
  have hne : i ≠ t.scopes.size := Nat.ne_of_lt h
  show ((t.scopes.push _).modify t.current _)[i]? = _
  rw [Array.getElem?_modify, Array.getElem?_push, if_neg hne]
  by_cases hi : t.current = i
  · simp only [hi, if_true]
    rfl
  · simp only [hi, if_false, Option.map_id']
    rfl

theorem skeleton?_push_of_lt (h : i < t.size) (name : String) (kind : ScopeKind) :
    (t.push name kind).skeleton? i = t.skeleton? i := by
  rw [skeleton?, get?_push_of_lt h, Option.map_map, skeleton?]
  refine Option.map_congr ?_
  intro s _
  show Scope.skeleton (if _ then _ else _) = _
  split
  · rfl
  · rfl

theorem binding?_push_of_lt (h : i < t.size) (name n : String) (kind : ScopeKind) :
    (t.push name kind).binding? i n = t.binding? i n := by
  rw [binding?, get?_push_of_lt h, binding?]
  cases t.get? i with
  | none => rfl
  | some s =>
    show Scope.binding? (if _ then _ else _) n = _
    split
    · rfl
    · rfl

/-- The scope that is opened binds nothing yet. -/
theorem binding?_push_of_not_lt (ht : t.WellFormed) (h : ¬ i < t.size) (name n : String)
    (kind : ScopeKind) : (t.push name kind).binding? i n = none := by
  rcases Nat.eq_or_lt_of_le (Nat.le_of_not_lt h) with rfl | hlt
  · rw [binding?, get?_push_size ht]
    rfl
  · have hsize : (t.push name kind).scopes.size ≤ i := by
      rw [← size, size_push]
      exact hlt
    rw [binding?, get?, Array.getElem?_eq_none hsize]
    rfl

theorem skeleton?_eq_some {id : ScopeId} {name : String} {parent : Option ScopeId} :
    t.skeleton? i = some (id, name, parent) ↔
      ∃ s, t.get? i = some s ∧ s.id = id ∧ s.name = name ∧ s.parent = parent := by
  rw [skeleton?, Option.map_eq_some_iff]
  constructor
  · rintro ⟨s, hs, h⟩
    obtain ⟨hid, hname, hparent⟩ := by simpa [Scope.skeleton] using h
    exact ⟨s, hs, hid, hname, hparent⟩
  · rintro ⟨s, hs, rfl, rfl, rfl⟩
    exact ⟨s, hs, rfl⟩

/-- A scope of one tree stands in another with the same skeletons. -/
theorem exists_of_skeleton? (h : t'.skeleton? i = t.skeleton? i) (hs : t'.get? i = some s) :
    ∃ s', t.get? i = some s' ∧ s'.id = s.id ∧ s'.name = s.name ∧ s'.parent = s.parent :=
  skeleton?_eq_some.mp (h.symm.trans (skeleton?_eq_some.mpr ⟨s, hs, rfl, rfl, rfl⟩))

/-- A tree whose scopes have the skeletons of a well-formed one is well formed, wherever in it
    the current scope is. -/
theorem WellFormed.of_skeleton (ht : t.WellFormed) (h : ∀ i, t'.skeleton? i = t.skeleton? i)
    (hcurrent : t'.current < t'.size) : t'.WellFormed := by
  refine ⟨?_, ?_, ?_, hcurrent⟩
  · intro i s hs
    obtain ⟨s', hs', hid, -, -⟩ := exists_of_skeleton? (h i) hs
    rw [← hid, ht.id_eq hs']
  · intro i s p hs hp
    obtain ⟨s', hs', -, -, hparent⟩ := exists_of_skeleton? (h i) hs
    exact ht.parent_lt hs' (hparent.trans hp)
  · intro i s hs hp
    obtain ⟨s', hs', -, -, hparent⟩ := exists_of_skeleton? (h i) hs
    exact ht.eq_root hs' (hparent.trans hp)

/-- A scope of the tree with one more open is the new one or was there before. -/
theorem get?_push_cases (ht : t.WellFormed) {name : String} {kind : ScopeKind}
    (h : (t.push name kind).get? i = some s) :
    i = t.size ∧ s = ⟨t.size, name, kind, some t.current, #[], []⟩ ∨
      ∃ s', t.get? i = some s' ∧ s'.id = s.id ∧ s'.name = s.name ∧ s'.parent = s.parent := by
  have hlt := lt_of_get? h
  rw [size_push] at hlt
  rcases Nat.lt_or_eq_of_le (Nat.le_of_lt_succ hlt) with hi | rfl
  · right
    exact exists_of_skeleton? (skeleton?_push_of_lt hi name kind) h
  · left
    rw [get?_push_size ht] at h
    exact ⟨rfl, (Option.some.inj h).symm⟩

theorem WellFormed.push (ht : t.WellFormed) (name : String) (kind : ScopeKind) :
    (t.push name kind).WellFormed := by
  refine ⟨?_, ?_, ?_, ?_⟩
  · intro i s h
    rcases get?_push_cases ht h with ⟨rfl, rfl⟩ | ⟨s', hs', hid, -, -⟩
    · rfl
    · rw [← hid, ht.id_eq hs']
  · intro i s p h hp
    rcases get?_push_cases ht h with ⟨rfl, rfl⟩ | ⟨s', hs', -, -, hparent⟩
    · obtain rfl := Option.some.inj hp
      exact ht.current_lt
    · exact ht.parent_lt hs' (hparent.trans hp)
  · intro i s h hp
    rcases get?_push_cases ht h with ⟨rfl, rfl⟩ | ⟨s', hs', -, -, hparent⟩
    · cases hp
    · exact ht.eq_root hs' (hparent.trans hp)
  · rw [size_push]
    exact Nat.lt_succ_self _

theorem chain_push_of_lt (h : i < t.size) (name : String) (kind : ScopeKind) :
    (t.push name kind).chain i = t.chain i :=
  chain_congr fun _ hj => skeleton?_push_of_lt (Nat.lt_of_le_of_lt hj h) name kind

theorem path_push_of_lt (h : i < t.size) (name : String) (kind : ScopeKind) :
    (t.push name kind).path i = t.path i :=
  path_congr fun _ hj => skeleton?_push_of_lt (Nat.lt_of_le_of_lt hj h) name kind

/-- Around the scope that is opened stands what was around before. -/
theorem chain_push_current (ht : t.WellFormed) (name : String) (kind : ScopeKind) :
    (t.push name kind).chain (t.push name kind).current = t.size :: t.chain t.current := by
  show (t.push name kind).chain t.size = _
  rw [chain_eq (ht.push name kind) (get?_push_size ht name kind)]
  show t.size :: (t.push name kind).chain t.current = _
  rw [chain_push_of_lt ht.current_lt]

/-! ### Leaving -/

theorem pop_eq {rest : List ScopeId} (ht : t.WellFormed)
    (h : t.chain t.current = i :: p :: rest) :
    t.pop = ⟨t.scopes, p⟩ ∧ t.chain p = p :: rest ∧ p < t.size := by
  obtain ⟨s, hs⟩ := get?_of_lt ht.current_lt
  rw [chain_eq ht hs] at h
  obtain ⟨-, h⟩ := List.cons.inj h
  cases hp : s.parent with
  | none =>
    rw [hp] at h
    cases h
  | some q =>
    rw [hp] at h
    have hlt := Nat.lt_trans (ht.parent_lt hs hp) ht.current_lt
    obtain ⟨s', hs'⟩ := get?_of_lt hlt
    have hchain : t.chain q = p :: rest := h
    obtain ⟨rfl, -⟩ := List.cons.inj ((chain_eq ht hs').symm.trans hchain)
    refine ⟨?_, hchain, hlt⟩
    simp [pop, hs, hp]

/-! ### Binding -/

/-- Binding a name changes the current scope, or nothing at all. -/
theorem get?_define (t : ScopeTree) (name : String) (id : SymbolId) (i : ScopeId) :
    (t.define name id).2.get? i = (t.get? i).map fun s =>
      if t.current = i ∧ t.binding? i name = none then
        { s with bindings := (name, id) :: s.bindings }
      else s := by
  cases hc : t.get? t.current with
  | none =>
    have hne : ∀ s, t.get? i = some s → t.current ≠ i := by
      rintro s hs rfl
      rw [hc] at hs
      cases hs
    cases hi : t.get? i with
    | none => simp [define, hc, hi]
    | some s => simp [define, hc, hi, hne s hi]
  | some s =>
    cases hb : s.binding? name with
    | some x =>
      have hbound : t.binding? t.current name = some x := by simp [binding?, hc, hb]
      have hsame : (t.define name id).2 = t := by simp [define, hc, hb]
      rw [hsame]
      cases hi : t.get? i with
      | none => rfl
      | some s' =>
        by_cases hcurrent : t.current = i
        · subst hcurrent
          simp [hbound]
        · simp [hcurrent]
    | none =>
      have hnone : t.binding? t.current name = none := by simp [binding?, hc, hb]
      have hscopes : (t.define name id).2.scopes = t.scopes.modify t.current
          fun s => { s with bindings := (name, id) :: s.bindings } := by
        simp [define, hc, hb]
      rw [get?, hscopes, Array.getElem?_modify]
      by_cases hcurrent : t.current = i
      · subst hcurrent
        simp only [hnone, if_true, and_self]
        rfl
      · simp only [hcurrent, false_and, if_false, Option.map_id']
        rfl

theorem skeleton?_define (t : ScopeTree) (name : String) (id : SymbolId) (i : ScopeId) :
    (t.define name id).2.skeleton? i = t.skeleton? i := by
  rw [skeleton?, get?_define, Option.map_map, skeleton?]
  refine Option.map_congr ?_
  intro s _
  show Scope.skeleton (if _ then _ else _) = _
  split
  · rfl
  · rfl

theorem current_define (t : ScopeTree) (name : String) (id : SymbolId) :
    (t.define name id).2.current = t.current := by
  unfold define
  split
  · rfl
  · split
    · rfl
    · rfl

theorem size_define (t : ScopeTree) (name : String) (id : SymbolId) :
    (t.define name id).2.size = t.size := by
  unfold define
  split
  · rfl
  · split
    · rfl
    · simp [size]

theorem WellFormed.define (ht : t.WellFormed) (name : String) (id : SymbolId) :
    (t.define name id).2.WellFormed := by
  refine ht.of_skeleton (skeleton?_define t name id) ?_
  rw [current_define, size_define]
  exact ht.current_lt

/-- A name that the current scope does not bind yet is bound there, and only there. -/
theorem binding?_define (ht : t.WellFormed) {name : String} (id : SymbolId)
    (hnone : t.binding? t.current name = none) (i : ScopeId) (n : String) :
    (t.define name id).2.binding? i n =
      if t.current = i ∧ n = name then some id else t.binding? i n := by
  rw [binding?, get?_define]
  by_cases hcurrent : t.current = i
  · subst hcurrent
    obtain ⟨s, hs⟩ := get?_of_lt ht.current_lt
    have hbinding : t.binding? t.current n = s.binding? n := by simp [binding?, hs]
    rw [hbinding, hs]
    by_cases hn : n = name
    · simp [hnone, hn, Scope.binding?]
    · have hbeq : (n == name) = false := beq_eq_false_iff_ne.mpr hn
      simp [hnone, hn, Scope.binding?, List.lookup_cons, hbeq]
  · simp only [hcurrent, false_and, if_false, Option.map_id']
    rfl

/-! ### Qualified names -/

theorem exists_of_mem_path (ht : t.WellFormed) {name : String} (h : name ∈ t.path i) :
    ∃ j s, t.get? j = some s ∧ s.name = name := by
  obtain ⟨s, hs, hname⟩ := List.mem_map.mp (List.mem_reverse.mp h)
  exact ⟨s.id, s, get?_of_mem_outward ht hs, hname⟩

theorem path_ne_nil (ht : t.WellFormed) (h : i < t.size) : t.path i ≠ [] := by
  obtain ⟨s, hs⟩ := get?_of_lt h
  rw [path_eq ht hs]
  simp

/-- Scopes with the same parent have different names. -/
def Distinct (t : ScopeTree) : Prop :=
  ∀ ⦃i j s s'⦄, t.get? i = some s → t.get? j = some s' → s.parent = s'.parent →
    s.name = s'.name → i = j

theorem Distinct.of_skeleton (hdistinct : t.Distinct)
    (h : ∀ i, t'.skeleton? i = t.skeleton? i) : t'.Distinct := by
  intro i j s s' hs hs' hparent hname
  obtain ⟨u, hu, -, huname, huparent⟩ := exists_of_skeleton? (h i) hs
  obtain ⟨u', hu', -, huname', huparent'⟩ := exists_of_skeleton? (h j) hs'
  apply hdistinct hu hu'
  · rw [huparent, huparent', hparent]
  · rw [huname, huname', hname]

/-- A scope with a name that none beside it has leaves siblings distinct. -/
theorem Distinct.push (hdistinct : t.Distinct) (ht : t.WellFormed) {name : String}
    (kind : ScopeKind)
    (hfresh : ∀ {i s}, t.get? i = some s → s.parent = some t.current → s.name ≠ name) :
    (t.push name kind).Distinct := by
  intro i j s s' hs hs' hparent hname
  rcases get?_push_cases ht hs with ⟨rfl, rfl⟩ | ⟨u, hu, -, huname, huparent⟩
  · rcases get?_push_cases ht hs' with ⟨rfl, rfl⟩ | ⟨u', hu', -, huname', huparent'⟩
    · rfl
    · exact absurd (huname'.trans hname.symm) (hfresh hu' (huparent'.trans hparent.symm))
  · rcases get?_push_cases ht hs' with ⟨rfl, rfl⟩ | ⟨u', hu', -, huname', huparent'⟩
    · exact absurd (huname.trans hname) (hfresh hu (huparent.trans hparent))
    · apply hdistinct hu hu'
      · rw [huparent, huparent', hparent]
      · rw [huname, huname', hname]

/-- In a tree with distinct siblings scopes are told apart by their paths. -/
theorem path_injective (ht : t.WellFormed) (hdistinct : t.Distinct) (hi : i < t.size)
    (hj : j < t.size) (h : t.path i = t.path j) : i = j := by
  induction i using Nat.strongRecOn generalizing j with
  | ind i ih =>
    obtain ⟨s, hs⟩ := get?_of_lt hi
    obtain ⟨s', hs'⟩ := get?_of_lt hj
    rw [path_eq ht hs, path_eq ht hs'] at h
    obtain ⟨hfront, hname⟩ := List.append_inj' h rfl
    have hname : s.name = s'.name := (List.cons.inj hname).1
    cases hp : s.parent with
    | none =>
      cases hp' : s'.parent with
      | none => rw [ht.eq_root hs hp, ht.eq_root hs' hp']
      | some q =>
        rw [hp, hp'] at hfront
        have hq := Nat.lt_trans (ht.parent_lt hs' hp') hj
        exact absurd hfront.symm (path_ne_nil ht hq)
    | some p =>
      have hpi := ht.parent_lt hs hp
      have hp_lt := Nat.lt_trans hpi hi
      cases hp' : s'.parent with
      | none =>
        rw [hp, hp'] at hfront
        exact absurd hfront (path_ne_nil ht hp_lt)
      | some q =>
        rw [hp, hp'] at hfront
        have hq := Nat.lt_trans (ht.parent_lt hs' hp') hj
        obtain rfl := ih p hpi hp_lt hq hfront
        exact hdistinct hs hs' (hp.trans hp'.symm) hname

/-- **Qualified names never alias** in a tree with distinct siblings, all of whose names are
    segments. -/
theorem qualify_injective (ht : t.WellFormed) (hdistinct : t.Distinct)
    (hnames : ∀ {i s}, t.get? i = some s → Segment s.name.toList) {n m : String} (hi : i < t.size)
    (hj : j < t.size) (hn : IsWord n) (hm : IsWord m) (h : t.qualify i n = t.qualify j m) :
    i = j ∧ n = m := by
  have hsegments : ∀ {i : ScopeId} {n : String}, IsWord n → ∀ a ∈ t.path i ++ [n], Segment a.toList := by
    intro i n hn a ha
    rcases List.mem_append.mp ha with ha | ha
    · obtain ⟨k, s, hs, rfl⟩ := exists_of_mem_path ht ha
      exact hnames hs
    · rw [List.mem_singleton.mp ha]
      exact hn.segment
  have hne : ∀ {i : ScopeId} {n : String}, t.path i ++ [n] ≠ [] := by simp
  have hlist := join_injective (hsegments hn) (hsegments hm) hne hne h
  obtain ⟨hpath, hname⟩ := List.append_inj' hlist rfl
  exact ⟨path_injective ht hdistinct hi hj hpath, (List.cons.inj hname).1⟩

end ScopeTree

end TarnLang
