/-
  TarnLang/Proofs/Resolution/Correspondence.lean
  ==============================================
  **Bindings and symbols correspond one to one.**  Scopes bind names of their own, the table
  of symbols knows qualified names.  Declaring a name asks the table whether the qualified name
  is free, and what the scope says to the binding is not asked.  It never refuses one: if the
  scope bound the name already, the table would have its symbol.

  `Linked` says how the two correspond.  It holds for all trees, also where different scopes
  have the same path.  Then a declaration may be refused though its scope does not bind the
  name; but a name that is bound always has its symbol, the one that was declared there.
-/
import TarnLang.Proofs.Resolution.Arena
import TarnLang.Proofs.Resolution.Record
import TarnLang.Proofs.Resolution.Script

namespace TarnLang

variable {t t' : ScopeTree} {table : SymbolTable} {s : Symbol} {q n : String} {i : ScopeId}
  {id : SymbolId}

/-! ### Tables -/

namespace SymbolTable

theorem qualified_of_get? (h : table.get? q = some s) : s.id.qualified = q := by
  rw [get?] at h
  simpa using Array.find?_some h

theorem mem_of_get? (h : table.get? q = some s) : s ∈ table.entries := Array.mem_of_find?_eq_some h

/-- A symbol whose qualified name is free is added behind the others. -/
theorem get?_push (hfree : table.get? s.id.qualified = none) (q : String) :
    get? ⟨table.entries.push s⟩ q = if q = s.id.qualified then some s else table.get? q := by
  rw [get?, Array.find?_push]
  by_cases hq : q = s.id.qualified
  · subst hq
    have hnone : table.entries.find? (fun m => m.id.qualified = s.id.qualified) = none := hfree
    simp [hnone]
  · simp [hq, Ne.symm hq, get?]

end SymbolTable

theorem ScopeTree.qualify_congr (h : t'.path i = t.path i) (n : String) :
    t'.qualify i n = t.qualify i n := by
  rw [qualify, h, qualify]

/-! ### Trees and tables that are linked -/

/-- How the bindings of a tree and the symbols of a table correspond. -/
structure Linked (t : ScopeTree) (table : SymbolTable) : Prop where
  tree : t.WellFormed
  /-- No scope binds a name twice. -/
  nodup : ∀ {i scope}, t.get? i = some scope → (scope.bindings.map Prod.fst).Nodup
  /-- What a name is bound to says which name in which scope it is. -/
  bound : ∀ {i n id}, t.binding? i n = some id → id = ⟨n, i, t.qualify i n⟩
  /-- A bound name has a symbol, which is found by its qualified name. -/
  symbol : ∀ {i n id}, t.binding? i n = some id → ∃ s, table.get? id.qualified = some s ∧ s.id = id
  /-- A symbol is bound under its name in its scope. -/
  binding : ∀ s ∈ table.entries, t.binding? s.scope s.id.name = some s.id
  /-- Every symbol of the table is the one that is found by its qualified name. -/
  found : ∀ s ∈ table.entries, table.get? s.id.qualified = some s
  /-- A symbol has the name that its declaration declares. -/
  named : ∀ s ∈ table.entries, s.id.name = s.name.text ∧ s.declaration.name? = some s.name
  /-- A symbol's kind is given by its declaration and the scope it is declared in. -/
  kind : ∀ s ∈ table.entries, s.kind = s.declaration.kindIn s.scope

namespace Linked

theorem fresh : Linked .fresh .empty := by
  have hnothing : ∀ {i n id}, ScopeTree.fresh.binding? i n = some id → False := by
    intro i n id h
    rw [ScopeTree.binding?_fresh] at h
    cases h
  have hempty : ∀ s, s ∉ SymbolTable.empty.entries := by
    intro s hs
    simp [SymbolTable.empty] at hs
  refine ⟨ScopeTree.wellFormed_fresh, ?_, fun h => (hnothing h).elim, fun h => (hnothing h).elim,
    fun s hs => absurd hs (hempty s), fun s hs => absurd hs (hempty s),
    fun s hs => absurd hs (hempty s), fun s hs => absurd hs (hempty s)⟩
  intro i scope h
  obtain ⟨rfl, rfl⟩ := ScopeTree.eq_of_get?_fresh h
  exact List.nodup_nil

/-! ### Opening and leaving scopes -/

theorem push (h : Linked t table) (name : String) (kind : ScopeKind) :
    Linked (t.push name kind) table := by
  -- a name that is bound was bound before, in a scope that keeps its path
  have hold : ∀ {i n id}, (t.push name kind).binding? i n = some id →
      i < t.size ∧ t.binding? i n = some id := by
    intro i n id hid
    by_cases hi : i < t.size
    · rw [ScopeTree.binding?_push_of_lt hi] at hid
      exact ⟨hi, hid⟩
    · rw [ScopeTree.binding?_push_of_not_lt h.tree hi] at hid
      cases hid
  refine ⟨h.tree.push name kind, ?_, ?_, fun hid => h.symbol (hold hid).2, ?_, h.found, h.named,
    h.kind⟩
  · intro i scope hscope
    by_cases hi : i < t.size
    · obtain ⟨old, hget⟩ := ScopeTree.get?_of_lt hi
      rw [ScopeTree.get?_push_of_lt hi, hget] at hscope
      cases hscope
      have hnodup := h.nodup hget
      split
      · exact hnodup
      · exact hnodup
    · rcases ScopeTree.get?_push_cases h.tree hscope with ⟨-, rfl⟩ | ⟨old, hget, -⟩
      · exact List.nodup_nil
      · exact absurd (ScopeTree.lt_of_get? hget) hi
  · intro i n id hid
    obtain ⟨hi, hid⟩ := hold hid
    rw [ScopeTree.qualify_congr (ScopeTree.path_push_of_lt hi name kind)]
    exact h.bound hid
  · intro s hs
    have hid := h.binding s hs
    obtain ⟨scope, hscope, -⟩ := Option.bind_eq_some_iff.mp hid
    rw [ScopeTree.binding?_push_of_lt (ScopeTree.lt_of_get? hscope)]
    exact hid

theorem pop (h : Linked t table) : Linked t.pop table := by
  have hbinding : ∀ i n, t.pop.binding? i n = t.binding? i n := by
    intro i n
    rw [ScopeTree.binding?, ScopeTree.get?_pop, ScopeTree.binding?]
  refine ⟨h.tree.pop, ?_, ?_, ?_, ?_, h.found, h.named, h.kind⟩
  · intro i scope hscope
    rw [ScopeTree.get?_pop] at hscope
    exact h.nodup hscope
  · intro i n id hid
    have hpath := ScopeTree.path_congr (i := i) fun j _ => t.skeleton?_pop j
    rw [ScopeTree.qualify_congr hpath]
    exact h.bound ((hbinding i n).symm.trans hid)
  · intro i n id hid
    exact h.symbol ((hbinding i n).symm.trans hid)
  · intro s hs
    exact (hbinding _ _).trans (h.binding s hs)

/-! ### Declaring names -/

/-- **Where the qualified name is free, so is the name in its scope.** -/
theorem binding?_eq_none (h : Linked t table) (hfree : table.get? (t.qualify i n) = none) :
    t.binding? i n = none := by
  cases hid : t.binding? i n with
  | none => rfl
  | some id =>
    obtain ⟨s, hs, -⟩ := h.symbol hid
    rw [h.bound hid, hfree] at hs
    cases hs

theorem nodup_define (h : Linked t table) (name : String) (id : SymbolId) {scope : Scope}
    (hscope : (t.define name id).2.get? i = some scope) :
    (scope.bindings.map Prod.fst).Nodup := by
  rw [ScopeTree.get?_define] at hscope
  obtain ⟨old, hget, rfl⟩ := Option.map_eq_some_iff.mp hscope
  have hnodup := h.nodup hget
  split
  case isFalse => exact hnodup
  case isTrue hfree =>
    refine List.nodup_cons.mpr ⟨?_, hnodup⟩
    intro hmem
    obtain ⟨entry, hentry, hname⟩ := List.mem_map.mp hmem
    have hnone : old.bindings.lookup name = none := by
      have hbinding := hfree.2
      rw [ScopeTree.binding?, hget] at hbinding
      exact hbinding
    have hne := List.lookup_eq_none_iff.mp hnone entry hentry
    simp [hname] at hne

/-- A new symbol together with its binding. -/
theorem define (h : Linked t table) (hscope : s.scope = t.current)
    (hid : s.id = ⟨s.name.text, t.current, t.qualify t.current s.name.text⟩)
    (hfree : table.get? s.id.qualified = none) (hnamed : s.declaration.name? = some s.name)
    (hkind : s.kind = s.declaration.kindIn t.current) :
    Linked (t.define s.name.text s.id).2 ⟨table.entries.push s⟩ := by
  have hqualified : s.id.qualified = t.qualify t.current s.name.text := congrArg (·.qualified) hid
  have hname : s.id.name = s.name.text := congrArg (·.name) hid
  have hnone : t.binding? t.current s.name.text = none := by
    rw [hqualified] at hfree
    exact h.binding?_eq_none hfree
  have hbinding := ScopeTree.binding?_define h.tree s.id hnone
  have hget := SymbolTable.get?_push hfree
  have hqualify : ∀ i n, (t.define s.name.text s.id).2.qualify i n = t.qualify i n :=
    fun i n => ScopeTree.qualify_congr
      (ScopeTree.path_congr fun j _ => ScopeTree.skeleton?_define t s.name.text s.id j) n
  -- symbols that were there before have other qualified names
  have hother : ∀ {m}, m ∈ table.entries → m.id.qualified ≠ s.id.qualified := by
    intro m hm heq
    have hfound := h.found m hm
    rw [heq, hfree] at hfound
    cases hfound
  refine ⟨h.tree.define _ _, h.nodup_define _ _, ?_, ?_, ?_, ?_, ?_, ?_⟩
  · intro i n id hbound
    rw [hqualify]
    rw [hbinding] at hbound
    split at hbound
    case isTrue hnew =>
      obtain ⟨rfl, rfl⟩ := hnew
      cases hbound
      exact hid
    case isFalse => exact h.bound hbound
  · intro i n id hbound
    rw [hbinding] at hbound
    rw [hget]
    split at hbound
    case isTrue =>
      cases hbound
      exact ⟨s, if_pos rfl, rfl⟩
    case isFalse =>
      obtain ⟨m, hm, hsame⟩ := h.symbol hbound
      have hne := hother (SymbolTable.mem_of_get? hm)
      rw [SymbolTable.qualified_of_get? hm] at hne
      exact ⟨m, (if_neg hne).trans hm, hsame⟩
  · intro m hm
    rw [hbinding]
    rcases Array.mem_push.mp hm with hm | rfl
    · have hold := h.binding m hm
      rw [if_neg, hold]
      rintro ⟨hcurrent, hsame⟩
      rw [← hcurrent, hsame, hnone] at hold
      cases hold
    · rw [if_pos ⟨hscope.symm, hname⟩]
  · intro m hm
    rw [hget]
    rcases Array.mem_push.mp hm with hm | rfl
    · rw [if_neg (hother hm)]
      exact h.found m hm
    · exact if_pos rfl
  · intro m hm
    rcases Array.mem_push.mp hm with hm | rfl
    · exact h.named m hm
    · exact ⟨hname, hnamed⟩
  · intro m hm
    rcases Array.mem_push.mp hm with hm | rfl
    · exact h.kind m hm
    · rw [hscope]
      exact hkind

/-! ### Looking up -/

/-- **A name that is bound where it is looked up has a symbol**, the one it is bound to. -/
theorem exists_of_lookupFrom (h : Linked t table) (hid : t.lookupFrom i n = some id) :
    ∃ s, table.get? id.qualified = some s ∧ s.id = id := by
  obtain ⟨scope, -, hbound, -⟩ := ScopeTree.exists_nearest h.tree hid
  exact h.symbol hbound

/-- A symbol is that of the main function if and only if a function named `main` declares it in
    the outermost scope. -/
theorem kind_eq_mainFunction_iff (h : Linked t table) (hs : s ∈ table.entries) :
    s.kind = .mainFunction ↔ ∃ signature body span,
      s.declaration = .node (.functionDef signature body span) ∧ signature.name = s.name ∧
        s.name.text = "main" ∧ s.scope = ScopeTree.root := by
  have hnamed := (h.named s hs).2
  rw [h.kind s hs, Declaration.kindIn_eq_mainFunction_iff]
  constructor
  · rintro ⟨signature, body, span, hd, hmain, hroot⟩
    rw [hd] at hnamed
    have hname : signature.name = s.name := Option.some.inj hnamed
    rw [hname] at hmain
    exact ⟨signature, body, span, hd, hname, hmain, hroot⟩
  · rintro ⟨signature, body, span, hd, hname, hmain, hroot⟩
    rw [← hname] at hmain
    exact ⟨signature, body, span, hd, hmain, hroot⟩

end Linked

/-! ### The walk -/

theorem ScopeTree.define_of_binding?_eq_none (ht : t.WellFormed)
    (hnone : t.binding? t.current n = none) (id : SymbolId) :
    t.define n id = (true, ⟨t.scopes.modify t.current fun scope =>
      { scope with bindings := (n, id) :: scope.bindings }, t.current⟩) := by
  obtain ⟨scope, hscope⟩ := ScopeTree.get?_of_lt ht.current_lt
  have hbinding : scope.binding? n = none := by
    rw [ScopeTree.binding?, hscope] at hnone
    exact hnone
  simp [ScopeTree.define, hscope, hbinding]

namespace Walk

variable {w : Walk} {naming : Naming} {name : Token}

/-- The symbol that a declaration makes in the current scope. -/
def symbolOf (w : Walk) (naming : Naming) : Symbol where
  id := ⟨naming.name.text, w.scopes.current, w.scopes.qualify w.scopes.current naming.name.text⟩
  kind := naming.declaration.kindIn w.scopes.current
  name := naming.name
  declaration := naming.declaration

/-- What declaring a name does: whether the name is declared, and the walk behind it. -/
inductive Declares (w : Walk) (naming : Naming) : Bool × Walk → Prop
  /-- The name was free, in the table and in the scope.  The table has one symbol more, and the
      current scope one binding; the scope did not refuse it. -/
  | accepts :
      w.symbols.get? (w.symbolOf naming).id.qualified = none →
      w.scopes.binding? w.scopes.current naming.name.text = none →
      (w.scopes.define naming.name.text (w.symbolOf naming).id).1 = true →
      Declares w naming (true, { w with
        scopes := ⟨w.scopes.scopes.modify w.scopes.current fun scope =>
          { scope with bindings := (naming.name.text, (w.symbolOf naming).id) :: scope.bindings },
          w.scopes.current⟩
        symbols := ⟨w.symbols.entries.push (w.symbolOf naming)⟩ })
  /-- The qualified name was taken.  There is one error more, and nothing else. -/
  | refuses {previous : Symbol} :
      w.symbols.get? (w.symbolOf naming).id.qualified = some previous →
      Declares w naming
        (false, { w with errors := w.errors.push (.redefinition naming.name previous) })

/-- What holds between the bindings and the symbols of a walk, and what follows from it for
    names that are looked up. -/
structure Consistent (w : Walk) : Prop where
  linked : Linked w.scopes w.symbols
  main : ∀ s ∈ w.symbols.entries, s.kind = .mainFunction ↔ ∃ signature body span,
    s.declaration = .node (.functionDef signature body span) ∧ signature.name = s.name ∧
      s.name.text = "main" ∧ s.scope = ScopeTree.root
  /-- A use of a name that is bound is not put off. -/
  met : ∀ {name id}, w.scopes.lookup name.text = some id →
    (∃ s, w.lookup name = some s ∧ s.id = id) ∧ ∀ usage, (w.use usage name).deferred = w.deferred
  /-- A use that was put off is undefined only if its name is bound nowhere around it. -/
  later : ∀ {use id}, w.scopes.lookupFrom use.scope use.usage.text = some id →
    ∃ s, w.deferredError use = .useBeforeDefinition use.usage (some s) ∧ s.id = id

theorem deferred_use {s : Symbol} (h : w.lookup name = some s) (usage : Usage) :
    (w.use usage name).deferred = w.deferred := by
  cases usage with
  | value =>
    simp only [use, useName, h]
    split
    · rfl
    · rfl
  | call asValue span =>
    simp only [use, useCall, h]
    split
    · rfl
    · split
      · rfl
      · rfl
  | assigned span =>
    simp only [use, useAssigned, h]
    split
    · rfl
    · rfl

end Walk

theorem Linked.consistent {w : Walk} (h : Linked w.scopes w.symbols) : w.Consistent where
  linked := h
  main s hs := h.kind_eq_mainFunction_iff hs
  met {name id} hid := by
    obtain ⟨s, hs, hsame⟩ := h.exists_of_lookupFrom hid
    have hlookup : w.lookup name = some s := by rw [Walk.lookup, hid, Option.bind_some, hs]
    exact ⟨⟨s, hlookup, hsame⟩, Walk.deferred_use hlookup⟩
  later {use id} hid := by
    obtain ⟨s, hs, hsame⟩ := h.exists_of_lookupFrom hid
    refine ⟨s, ?_, hsame⟩
    rw [Walk.deferredError, hid, Option.bind_some, hs]

namespace Walk

variable {w : Walk}

/-- **A declaration is accepted by the table and the scope, or by none of them.** -/
theorem declares_declareNaming (h : Linked w.scopes w.symbols) (naming : Naming) :
    w.Declares naming (w.declareNaming naming) := by
  cases hget : w.symbols.get? (w.symbolOf naming).id.qualified with
  | some previous =>
    rw [declareNaming, declare_of_some hget]
    exact .refuses hget
  | none =>
    have hnone := h.binding?_eq_none hget
    have hdefine := ScopeTree.define_of_binding?_eq_none h.tree hnone (w.symbolOf naming).id
    rw [declareNaming, declare_of_none hget rfl]
    show w.Declares naming
      (true, ⟨(w.scopes.define naming.name.text (w.symbolOf naming).id).2, _, _, _⟩)
    rw [hdefine]
    exact .accepts hget hnone (congrArg Prod.fst hdefine)

theorem linked_declareNaming (h : Linked w.scopes w.symbols) (naming : Naming) :
    Linked (w.declareNaming naming).2.scopes (w.declareNaming naming).2.symbols := by
  cases hget : w.symbols.get? (w.symbolOf naming).id.qualified with
  | some previous =>
    rw [declareNaming, declare_of_some hget]
    exact h
  | none =>
    rw [declareNaming, declare_of_none hget rfl]
    exact h.define (s := w.symbolOf naming) rfl rfl hget naming.named rfl

/-- **Bindings and symbols stay linked in every step.** -/
theorem linked_perform (w : Walk) (step : Step) (h : Linked w.scopes w.symbols) :
    Linked (w.perform step).scopes (w.perform step).symbols := by
  cases step with
  | uses usage name =>
    obtain ⟨hscopes, hsymbols⟩ := w.scopes_use usage name
    rw [perform, hscopes, hsymbols]
    exact h
  | declares naming => exact linked_declareNaming h naming
  | begins naming =>
    obtain ⟨scope, hbegins⟩ := w.perform_begins naming
    rw [hbegins]
    exact (linked_declareNaming h naming).push scope .callable
  | enters construct span => exact h.push _ .block
  | leaves => exact h.pop

theorem linked_run (steps : List Step) :
    Linked (run steps start).scopes (run steps start).symbols :=
  run_keeps (I := fun w => Linked w.scopes w.symbols) linked_perform Linked.fresh steps

end Walk

/-- **Bindings and symbols correspond one to one, for every tree:** wherever the walk stands,
    behind each declaration, and in the resolution.  Each declaration adds a symbol with its
    binding, or an error. -/
theorem resolve_consistent (p : Program) :
    resolve p = (Walk.run p.script .start).finish ∧
    Linked (resolve p).scopes (resolve p).symbols ∧
    (∀ steps rest, p.script = steps ++ rest → (Walk.run steps .start).Consistent) ∧
    ∀ steps step rest naming, p.script = steps ++ step :: rest → step.naming? = some naming →
      (Walk.run steps .start).Declares naming ((Walk.run steps .start).declareNaming naming) ∧
        ((Walk.run steps .start).declareNaming naming).2.Consistent := by
  refine ⟨Walk.resolve_eq_run p, ?_, ?_, ?_⟩
  · rw [Walk.resolve_eq_run p]
    exact Walk.linked_run p.script
  · intro steps rest _
    exact (Walk.linked_run steps).consistent
  · intro steps step rest naming _ _
    have hlinked := Walk.linked_run steps
    exact ⟨Walk.declares_declareNaming hlinked naming,
      (Walk.linked_declareNaming hlinked naming).consistent⟩

/-- Two blocks that are said to stand at one place have one path.  The name declared in the first
    is refused in the second, which does not bind it. -/
theorem resolve_consistent_aliased :
    let x : Token := ⟨.ident, "x", .point .origin⟩
    let naming : Naming := ⟨x, .node (.varDecl x (.point .origin)), rfl⟩
    let block : Node := .block ⟨[.varDecl x (.point .origin)], .point .origin⟩
    let before : List Step := [.enters "block" (.point .origin), .declares naming, .leaves,
      .enters "block" (.point .origin)]
    let w := Walk.run before .start
    w.scopes.current = 2 ∧ w.scopes.binding? 2 "x" = none ∧ (w.declareNaming naming).1 = false ∧
      w.Declares naming (w.declareNaming naming) ∧
      Linked (resolve ⟨[block, block], .point .origin⟩).scopes
        (resolve ⟨[block, block], .point .origin⟩).symbols := by
  intro x naming block before w
  obtain ⟨-, hlinked, -, hdeclares⟩ := resolve_consistent ⟨[block, block], .point .origin⟩
  refine ⟨by decide +kernel, by decide +kernel, by decide +kernel, ?_, hlinked⟩
  exact (hdeclares before (.declares naming) [.leaves] naming rfl rfl).1

end TarnLang
