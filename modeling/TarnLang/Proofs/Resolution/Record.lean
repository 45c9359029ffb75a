/-
  TarnLang/Proofs/Resolution/Record.lean
  ======================================
  **Scopes and symbols in order.**  `Walk.Follows` says which symbols there are.  This adds
  their order, and with it the scopes by number: each event that begins a scope adds one, with
  its kind and the scope that it stands in, and each first declaration of a name in a scope
  adds a symbol.  So scopes and symbols of a resolved program are read off its events.
-/
import TarnLang.Proofs.Resolution.Traversal

namespace TarnLang

/-! ### What events record -/

/-- The scope around a scope, and what the scope was opened for. -/
def Scope.outline (s : Scope) : Option ScopeId × ScopeKind := (s.parent, s.kind)

/-- Outlines of all scopes, by number. -/
def ScopeTree.outlines (t : ScopeTree) : List (Option ScopeId × ScopeKind) :=
  t.scopes.toList.map Scope.outline

def Event.opening? (e : Event) : Option (Option ScopeId × ScopeKind) :=
  match e.happening with
  | .begins kind _ _ => some (some e.nest.scope, kind)
  | _ => none

/-- Outlines of the outermost scope and of those that begin, in order. -/
def openings (es : List Event) : List (Option ScopeId × ScopeKind) :=
  (none, .root) :: es.filterMap Event.opening?

/-- The declaration at an event, if it is the first of its name in its scope. -/
def firstAt (earlier : List Event) (e : Event) : Option Declared :=
  e.declared?.filter fun d => (firstIn earlier d.scope d.name.text).isNone

/-- First declarations, in order. -/
def firsts (es : List Event) : List Declared :=
  (withEarlier [] es).filterMap fun (earlier, e) => firstAt earlier e

variable {es : List Event} {e : Event} {d : Declared} {nest : Nest}

theorem openings_snoc (es : List Event) (e : Event) :
    openings (es ++ [e]) = openings es ++ e.opening?.toList := by
  cases h : e.opening? with
  | none => simp [openings, h]
  | some o => simp [openings, h]

theorem firsts_snoc (es : List Event) (e : Event) :
    firsts (es ++ [e]) = firsts es ++ (firstAt es e).toList := by
  rw [firsts, withEarlier_append, List.filterMap_append]
  cases h : firstAt es e with
  | none => simp [firsts, withEarlier, h]
  | some d => simp [firsts, withEarlier, h]

/-- First declarations are declarations. -/
theorem exists_of_mem_firsts (h : d ∈ firsts es) : ∃ e ∈ es, e.declared? = some d := by
  obtain ⟨⟨before, e⟩, hmem, hfirst⟩ := List.mem_filterMap.mp h
  obtain ⟨front, rest, hes, -⟩ := mem_withEarlier hmem
  have hdeclared := (Option.filter_eq_some_iff.mp hfirst).1
  refine ⟨e, ?_, hdeclared⟩
  rw [hes]
  exact List.mem_append_right front (List.mem_cons_self ..)

/-! ### Outlines of trees -/

theorem map_outline_modify {m : Scope → Scope} (l : List Scope) (i : Nat)
    (h : ∀ s, (m s).outline = s.outline) :
    (l.modify i m).map Scope.outline = l.map Scope.outline := by
  apply List.ext_getElem?
  intro j
  rw [List.getElem?_map, List.getElem?_modify, List.getElem?_map]
  cases l[j]? with
  | none => rfl
  | some s =>
    by_cases hij : i = j
    · simp [hij, h]
    · simp [hij]

namespace ScopeTree

theorem outlines_push (t : ScopeTree) (name : String) (kind : ScopeKind) :
    (t.push name kind).outlines = t.outlines ++ [(some t.current, kind)] := by
  rw [outlines, push, Array.toList_modify, map_outline_modify, Array.toList_push, List.map_append]
  · rfl
  · intro s
    rfl

theorem outlines_define (t : ScopeTree) (name : String) (id : SymbolId) :
    (t.define name id).2.outlines = t.outlines := by
  unfold define
  split
  · rfl
  · split
    · rfl
    · rw [outlines, Array.toList_modify, map_outline_modify]
      · rfl
      · intro s
        rfl

end ScopeTree

/-! ### The walk -/

/-- A walk that follows its events, with scopes and symbols in their order. -/
structure Walk.Records (w : Walk) (es : List Event) (nest : Nest) : Prop
    extends w.Follows es nest where
  outlines_eq : w.scopes.outlines = openings es
  symbols_eq : w.symbols.entries.toList = (firsts es).map (Declared.symbol w.scopes)

namespace Walk

variable {w : Walk} {i : ScopeId}

/-- Uses change neither scopes nor symbols. -/
theorem scopes_use (w : Walk) (usage : Usage) (name : Token) :
    (w.use usage name).scopes = w.scopes ∧ (w.use usage name).symbols = w.symbols := by
  cases hlookup : w.lookup name with
  | none =>
    rw [use_of_none hlookup]
    exact ⟨rfl, rfl⟩
  | some target =>
    cases usage with
    | value =>
      simp only [use, useName, hlookup]
      split
      · exact ⟨rfl, rfl⟩
      · exact ⟨rfl, rfl⟩
    | call asValue span =>
      simp only [use, useCall, hlookup]
      split
      · exact ⟨rfl, rfl⟩
      · split
        · exact ⟨rfl, rfl⟩
        · exact ⟨rfl, rfl⟩
    | assigned span =>
      simp only [use, useAssigned, hlookup]
      split
      · exact ⟨rfl, rfl⟩
      · exact ⟨rfl, rfl⟩

namespace Records

/-- Symbols look the same in a tree that agrees on the scopes that were there before. -/
theorem map_symbol_firsts (h : w.Records es nest) {t : ScopeTree}
    (hpath : ∀ i < w.scopes.size, t.path i = w.scopes.path i) :
    (firsts es).map (Declared.symbol t) = (firsts es).map (Declared.symbol w.scopes) := by
  apply List.map_congr_left
  intro d hd
  obtain ⟨e, he, hdeclared⟩ := exists_of_mem_firsts hd
  have hlt := (h.nests e he).1
  rw [← Event.scope_of_declared? hdeclared] at hlt
  exact Declared.symbol_congr (hpath d.scope hlt)

theorem uses (h : w.Records es nest) (usage : Usage) (name : Token)
    (hfit : Fit (es ++ [⟨nest, .uses usage name⟩])) :
    (w.use usage name).Records (es ++ [⟨nest, .uses usage name⟩]) nest := by
  obtain ⟨hscopes, hsymbols⟩ := w.scopes_use usage name
  have hnothing : firstAt es ⟨nest, .uses usage name⟩ = none := rfl
  refine ⟨h.toFollows.uses usage name hfit, ?_, ?_⟩
  · rw [hscopes, openings_snoc, h.outlines_eq]
    exact (List.append_nil _).symm
  · rw [hscopes, hsymbols, firsts_snoc, hnothing, h.symbols_eq]
    simp

theorem declares (h : w.Records es nest) (kind : SymbolKind) (name : Token)
    (declaration : Declaration) (hfit : Fit (es ++ [⟨nest, .declares kind name declaration⟩])) :
    (w.declare name kind declaration).2.Records
      (es ++ [⟨nest, .declares kind name declaration⟩]) nest := by
  have hfollows := h.toFollows.declares kind name declaration hfit
  have hget := h.get?_of_declares hfit
  have hopens : openings (es ++ [⟨nest, .declares kind name declaration⟩]) = openings es := by
    rw [openings_snoc]
    exact List.append_nil _
  cases hfirst : firstIn es nest.scope name.text with
  | none =>
    -- the symbol comes last, and binding its name leaves every skeleton as it is
    let d : Declared := ⟨w.scopes.current, kind, name, declaration⟩
    have hd : firstAt es ⟨nest, .declares kind name declaration⟩ = some d := by
      simp [firstAt, Event.declared?, Option.filter, hfirst, d, h.scope_eq]
    have hskeleton := ScopeTree.skeleton?_define w.scopes name.text (d.id w.scopes)
    have hsymbol := Declared.symbol_of_skeleton hskeleton
    rw [hfirst] at hget
    rw [declare_of_none hget (d := d) rfl] at hfollows ⊢
    refine ⟨hfollows, ?_, ?_⟩
    · rw [hopens, ← h.outlines_eq]
      exact ScopeTree.outlines_define ..
    · rw [firsts_snoc, hd, hsymbol, List.map_append, ← h.symbols_eq]
      exact Array.toList_push
  | some d =>
    have hnothing : firstAt es ⟨nest, .declares kind name declaration⟩ = none := by
      simp [firstAt, Event.declared?, Option.filter, hfirst]
    rw [hfirst] at hget
    rw [declare_of_some hget] at hfollows ⊢
    refine ⟨hfollows, hopens ▸ h.outlines_eq, ?_⟩
    rw [firsts_snoc, hnothing, Option.toList_none, List.append_nil]
    exact h.symbols_eq

/-- A scope that is entered comes last. -/
theorem enter (h : w.Records es nest) {kind : ScopeKind} {construct name : String}
    {place : Position} {nest' : Nest}
    (hfollows : (w.enter name kind).Follows (es ++ [⟨nest, .begins kind construct place⟩]) nest') :
    (w.enter name kind).Records (es ++ [⟨nest, .begins kind construct place⟩]) nest' := by
  have hnothing : firstAt es ⟨nest, .begins kind construct place⟩ = none := rfl
  refine ⟨hfollows, ?_, ?_⟩
  · show (w.scopes.push name kind).outlines = _
    rw [ScopeTree.outlines_push, openings_snoc, h.outlines_eq, h.scope_eq]
    rfl
  · show w.symbols.entries.toList = (firsts _).map (Declared.symbol (w.scopes.push name kind))
    rw [firsts_snoc, hnothing, Option.toList_none, List.append_nil, h.symbols_eq]
    exact (h.map_symbol_firsts fun i hi => ScopeTree.path_push_of_lt hi name kind).symm

theorem leave (h : w.Records es (nest.inside i)) : w.leave.Records es nest := by
  obtain ⟨hpop, -, -⟩ := ScopeTree.pop_eq h.tree h.chain_eq
  have hskeleton : ∀ j, w.scopes.pop.skeleton? j = w.scopes.skeleton? j := by
    intro j
    rw [hpop]
    rfl
  refine ⟨h.toFollows.leave, ?_, ?_⟩
  · show w.scopes.pop.outlines = _
    rw [hpop]
    exact h.outlines_eq
  · show w.symbols.entries.toList = (firsts es).map (Declared.symbol w.scopes.pop)
    rw [Declared.symbol_of_skeleton hskeleton]
    exact h.symbols_eq

end Records

theorem kept_records : Kept Records where
  scope_eq h := h.scope_eq
  uses h usage name hfit := h.uses usage name hfit
  declares h kind name declaration hfit := h.declares kind name declaration hfit
  enterBlock h construct span hfit := h.enter (h.toFollows.enterBlock construct span hfit)
  beginCallable h name kind declaration hfit :=
    (h.declares kind name declaration hfit.left).enter
      (h.toFollows.beginCallable name kind declaration hfit)
  leave h := h.leave

theorem records_start : start.Records [] .outermost := ⟨follows_start, rfl, rfl⟩

end Walk

/-- **Scopes and symbols of a resolved program, in order**, are those that its events record. -/
theorem resolve_records {p : Program} (hfit : Fit p.events) :
    (resolve p).scopes.outlines = openings p.events ∧
      (resolve p).symbols.entries.toList =
        (firsts p.events).map (Declared.symbol (resolve p).scopes) := by
  have hrecords := Walk.kept_records.program Walk.records_start hfit
  exact ⟨hrecords.outlines_eq, hrecords.symbols_eq⟩

end TarnLang
