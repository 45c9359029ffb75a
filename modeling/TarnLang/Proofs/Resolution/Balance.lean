/-
  TarnLang/Proofs/Resolution/Balance.lean
  =======================================
  **The walk is balanced and takes nothing back.**  Steps are balanced when every scope that they
  enter is left again, inside out.  The steps over a node are balanced for every shape of node,
  whether or not it can stand in that position.

  Balanced steps end in the scope that they begin in.  They add to what was found before, and
  among the scopes that were there only the current one gets anything new.  The induction is on
  the nesting of the steps: what they do inside a scope of their own is a change of the scope
  around it by one child, once the scope is left.
-/
import TarnLang.Proofs.Resolution.Correspondence
import TarnLang.Proofs.Resolution.Region

namespace TarnLang

/-! ### Balanced steps -/

/-- Steps that leave every scope that they enter, and no other. -/
inductive Balanced : List Step → Prop
  | nil : Balanced []
  | uses {usage name} : Balanced [.uses usage name]
  | declares {naming} : Balanced [.declares naming]
  | append {steps steps'} (h : Balanced steps) (h' : Balanced steps') : Balanced (steps ++ steps')
  | block {construct span body} (h : Balanced body) :
    Balanced (.enters construct span :: (body ++ [.leaves]))
  | callable {naming body} (h : Balanced body) : Balanced (.begins naming :: (body ++ [.leaves]))

namespace Balanced

/-- Steps that show regions are balanced. -/
theorem of_shows {steps : List Step} {regions : List Region} (h : Shows steps regions) :
    Balanced steps := by
  induction h with
  | nil => exact .nil
  | uses => exact .uses
  | declares => exact .declares
  | append _ _ ih ih' => exact ih.append ih'
  | @region step _ _ _ hstep _ ih =>
    cases step with
    | begins naming => exact ih.callable
    | enters construct span => exact ih.block
    | _ => cases hstep

/-- **The steps over a node are balanced**, whatever its shape. -/
theorem of_statement (n : Node) : Balanced (statementSteps n) := of_shows (.of_statement n)

end Balanced

/-! ### Scopes that get more -/

/-- A scope that has got more children and bindings, and kept everything else. -/
structure Scope.Grows (s s' : Scope) : Prop where
  id_eq : s'.id = s.id
  name_eq : s'.name = s.name
  kind_eq : s'.kind = s.kind
  parent_eq : s'.parent = s.parent
  children : s.children.toList <+: s'.children.toList
  bindings : s.bindings <:+ s'.bindings
  bound : ∀ n id, s.binding? n = some id → s'.binding? n = some id

namespace Scope.Grows

variable {s s' s'' : Scope}

theorem refl (s : Scope) : s.Grows s :=
  ⟨rfl, rfl, rfl, rfl, List.prefix_rfl, List.suffix_rfl, fun _ _ h => h⟩

theorem trans (h : s.Grows s') (h' : s'.Grows s'') : s.Grows s'' where
  id_eq := h'.id_eq.trans h.id_eq
  name_eq := h'.name_eq.trans h.name_eq
  kind_eq := h'.kind_eq.trans h.kind_eq
  parent_eq := h'.parent_eq.trans h.parent_eq
  children := h.children.trans h'.children
  bindings := h.bindings.trans h'.bindings
  bound n id hid := h'.bound n id (h.bound n id hid)

end Scope.Grows

namespace ScopeTree

variable {t t' t'' : ScopeTree}

/-- A tree with more in it: behind its scopes, and in the current one. -/
structure Extends (t t' : ScopeTree) : Prop where
  current_eq : t'.current = t.current
  size_le : t.size ≤ t'.size
  elsewhere : ∀ i, i < t.size → i ≠ t.current → t'.get? i = t.get? i
  here : ∀ s, t.get? t.current = some s → ∃ s', t'.get? t.current = some s' ∧ s.Grows s'

namespace Extends

theorem refl (t : ScopeTree) : t.Extends t :=
  ⟨rfl, Nat.le_refl _, fun _ _ _ => rfl, fun s hs => ⟨s, hs, .refl s⟩⟩

theorem trans (h : t.Extends t') (h' : t'.Extends t'') : t.Extends t'' := by
  refine ⟨h'.current_eq.trans h.current_eq, Nat.le_trans h.size_le h'.size_le, ?_, ?_⟩
  · intro i hi hne
    have hne' : i ≠ t'.current := fun heq => hne (heq.trans h.current_eq)
    rw [h'.elsewhere i (Nat.lt_of_lt_of_le hi h.size_le) hne', h.elsewhere i hi hne]
  · intro s hs
    obtain ⟨s', hs', hgrows⟩ := h.here s hs
    rw [← h.current_eq] at hs'
    obtain ⟨s'', hs'', hgrows'⟩ := h'.here s' hs'
    rw [h.current_eq] at hs''
    exact ⟨s'', hs'', hgrows.trans hgrows'⟩

theorem define (t : ScopeTree) (name : String) (id : SymbolId) :
    t.Extends (t.define name id).2 := by
  refine ⟨current_define t name id, Nat.le_of_eq (size_define t name id).symm, ?_, ?_⟩
  · intro i _ hne
    simp [get?_define, Ne.symm hne]
  · intro s hs
    obtain ⟨s', hs', hid, hname, hkind, hparent, hbound⟩ := keeps_define t name id _ s hs
    refine ⟨s', hs', hid, hname, hkind, hparent, ?_, ?_, hbound⟩
    · rw [get?_define, hs] at hs'
      obtain rfl := Option.some.inj hs'
      split
      · exact List.prefix_rfl
      · exact List.prefix_rfl
    · rw [get?_define, hs] at hs'
      obtain rfl := Option.some.inj hs'
      split
      · exact List.suffix_cons _ _
      · exact List.suffix_rfl

/-- **Behind a scope that was opened and left again, the scope around it has one more child.**  What
    was done in between does not show in any scope that was there before. -/
theorem of_push (ht : t.WellFormed) {name : String} {kind : ScopeKind}
    (h : (t.push name kind).Extends t') : t.Extends t'.pop := by
  have hcurrent := ht.current_lt
  have hold : ∀ i, i < t.size → t'.get? i = (t.push name kind).get? i := by
    intro i hi
    have hi' : i < (t.push name kind).size := by
      rw [size_push]
      exact Nat.lt_succ_of_lt hi
    exact h.elsewhere i hi' (Nat.ne_of_lt hi)
  have hparent : t'.parent? t'.current = some t.current := by
    obtain ⟨opened, hopened, hgrows⟩ := h.here _ (get?_push_size ht name kind)
    rw [h.current_eq, parent?_eq hopened, hgrows.parent_eq]
  refine ⟨?_, ?_, ?_, ?_⟩
  · rw [current_pop, hparent, Option.getD_some]
  · have hsize := h.size_le
    rw [size_push] at hsize
    rw [size_pop]
    exact Nat.le_of_succ_le hsize
  · intro i hi hne
    rw [get?_pop, hold i hi, get?_push_of_lt hi]
    simp [Ne.symm hne]
  · intro s hs
    obtain ⟨s', hs', hid, hname, hkind, hparent, hbound⟩ := keeps_push t name kind _ s hs
    rw [get?_pop, hold _ hcurrent]
    refine ⟨s', hs', hid, hname, hkind, hparent, ?_, ?_, hbound⟩
    · rw [get?_push_of_lt hcurrent, hs] at hs'
      obtain rfl := Option.some.inj hs'
      simp
    · rw [get?_push_of_lt hcurrent, hs] at hs'
      obtain rfl := Option.some.inj hs'
      simp

end Extends

end ScopeTree

/-! ### Walks that find more -/

namespace Walk

variable {w w' w'' : Walk}

/-- A walk that has found more and is back where it was: what was there before is there, unchanged
    and in front. -/
structure Extends (w w' : Walk) : Prop where
  scopes : w.scopes.Extends w'.scopes
  errors : w.errors.toList <+: w'.errors.toList
  deferred : w.deferred.toList <+: w'.deferred.toList
  entries : w.symbols.entries.toList <+: w'.symbols.entries.toList
  symbol : ∀ q s, w.symbols.get? q = some s → w'.symbols.get? q = some s

/-- What a use does: nothing, or it is put off, or it is reported. -/
theorem use_cases (w : Walk) (usage : Usage) (name : Token) :
    w.use usage name = w ∨ w.use usage name = w.defer name ∨
      ∃ e, w.use usage name = w.report e := by
  cases hlookup : w.lookup name with
  | none => exact Or.inr (Or.inl (use_of_none hlookup usage))
  | some target =>
    cases usage with
    | value =>
      simp only [use, useName, hlookup]
      split
      · exact Or.inr (Or.inr ⟨_, rfl⟩)
      · exact Or.inl rfl
    | call asValue span =>
      simp only [use, useCall, hlookup]
      split
      · exact Or.inr (Or.inr ⟨_, rfl⟩)
      · split
        · exact Or.inr (Or.inr ⟨_, rfl⟩)
        · exact Or.inl rfl
    | assigned span =>
      simp only [use, useAssigned, hlookup]
      split
      · exact Or.inr (Or.inr ⟨_, rfl⟩)
      · exact Or.inl rfl

namespace Extends

theorem refl (w : Walk) : w.Extends w :=
  ⟨.refl _, List.prefix_rfl, List.prefix_rfl, List.prefix_rfl, fun _ _ h => h⟩

theorem trans (h : w.Extends w') (h' : w'.Extends w'') : w.Extends w'' where
  scopes := h.scopes.trans h'.scopes
  errors := h.errors.trans h'.errors
  deferred := h.deferred.trans h'.deferred
  entries := h.entries.trans h'.entries
  symbol q s hs := h'.symbol q s (h.symbol q s hs)

theorem report (w : Walk) (e : SemanticError) : w.Extends (w.report e) := by
  refine { Extends.refl w with errors := ?_ }
  rw [Walk.report, Array.toList_push]
  exact List.prefix_append _ _

theorem defer (w : Walk) (usage : Token) : w.Extends (w.defer usage) := by
  refine { Extends.refl w with deferred := ?_ }
  rw [Walk.defer, Array.toList_push]
  exact List.prefix_append _ _

theorem use (w : Walk) (usage : Usage) (name : Token) : w.Extends (w.use usage name) := by
  rcases w.use_cases usage name with h | h | ⟨e, h⟩
  · rw [h]
    exact refl w
  · rw [h]
    exact defer w name
  · rw [h]
    exact report w e

theorem declareNaming (w : Walk) (naming : Naming) : w.Extends (w.declareNaming naming).2 := by
  cases hget : w.symbols.get? (w.symbolOf naming).id.qualified with
  | some previous =>
    rw [Walk.declareNaming, declare_of_some hget]
    exact report w _
  | none =>
    rw [Walk.declareNaming, declare_of_none hget rfl]
    refine ⟨.define .., List.prefix_rfl, List.prefix_rfl, ?_, ?_⟩
    · rw [Array.toList_push]
      exact List.prefix_append _ _
    · intro q s hs
      -- the name that was free is another one
      have hne : q ≠ (w.symbolOf naming).id.qualified := by
        rintro rfl
        rw [hget] at hs
        cases hs
      exact (SymbolTable.get?_push (s := w.symbolOf naming) hget q).trans ((if_neg hne).trans hs)

/-- What is found inside a scope of its own is found around it, once the scope is left. -/
theorem of_enter (ht : w.scopes.WellFormed) {name : String} {kind : ScopeKind}
    (h : (w.enter name kind).Extends w') : w.Extends w'.leave :=
  ⟨h.scopes.of_push ht, h.errors, h.deferred, h.entries, h.symbol⟩

end Extends

/-! ### Runs of balanced steps -/

theorem wellFormed_perform (w : Walk) (step : Step) (h : w.scopes.WellFormed) :
    (w.perform step).scopes.WellFormed := by
  have hdeclare : ∀ naming, (w.declareNaming naming).2.scopes.WellFormed := by
    intro naming
    unfold declareNaming declare
    dsimp only
    split
    · exact h.define ..
    · exact h
  cases step with
  | uses usage name =>
    rw [perform, (w.scopes_use usage name).1]
    exact h
  | declares naming => exact hdeclare naming
  | begins naming =>
    obtain ⟨scope, hbegins⟩ := w.perform_begins naming
    rw [hbegins]
    exact (hdeclare naming).push scope .callable
  | enters construct span => exact h.push _ .block
  | leaves => exact h.pop

theorem wellFormed_run (h : w.scopes.WellFormed) (steps : List Step) :
    (run steps w).scopes.WellFormed :=
  run_keeps (I := fun w => w.scopes.WellFormed) wellFormed_perform h steps

/-- **Balanced steps come back to where they began and take nothing back.** -/
theorem extends_run {steps : List Step} (h : Balanced steps) (ht : w.scopes.WellFormed) :
    w.Extends (run steps w) := by
  induction h generalizing w with
  | nil => exact .refl w
  | uses => exact .use w _ _
  | declares => exact .declareNaming w _
  | append _ _ ih ih' =>
    rw [run_append]
    exact (ih ht).trans (ih' (wellFormed_run ht _))
  | @block construct span body _ ih =>
    rw [run_cons, run_append]
    exact .of_enter ht (ih (wellFormed_perform w (.enters construct span) ht))
  | @callable naming body _ ih =>
    rw [run_cons, run_append]
    have hentered := wellFormed_perform w (.begins naming) ht
    have hdeclared := wellFormed_perform w (.declares naming) ht
    obtain ⟨scope, hbegins⟩ := w.perform_begins naming
    rw [hbegins] at hentered ⊢
    -- the declaration stands around the scope that it opens
    exact (Extends.declareNaming w naming).trans (.of_enter hdeclared (ih hentered))

/-- **The walk over a node is balanced and takes nothing back**, for every shape of node, from
    every scope tree that can be built, and whatever else has been found. -/
theorem extends_visitStatement (edits : List ScopeTree.Edit) (symbols : SymbolTable)
    (errors : Array SemanticError) (deferred : Array DeferredUse) (n : Node) :
    (⟨.built edits, symbols, errors, deferred⟩ : Walk).Extends
      (visitStatement n ⟨.built edits, symbols, errors, deferred⟩) := by
  rw [visitStatement_eq_run]
  exact extends_run (.of_statement n) (ScopeTree.Preordered.built edits).tree

end Walk

end TarnLang
