/-
  TarnLang/Proofs/Layout/Outline.lean
  ===================================
  **What layout cannot change about a resolution.**  Tokens are numbered by their place in the
  stream.  The outline of a resolution has the scopes by number with their parents and kinds,
  the symbols with the number of the token that declares them, and the errors with their
  kinds, the number of the offending token and the symbol they refer to.

  All of this can be read off the events of a program, whatever positions they show.  So
  relocated events have the same outline when the relocated names have the same numbers.
-/
import TarnLang.Proofs.Layout.Events

namespace TarnLang

/-! ### Outlines -/

/-- A symbol: the number of the token that declares it, its kind and its scope. -/
structure SymbolOutline where
  name : Nat
  kind : SymbolKind
  scope : ScopeId
deriving DecidableEq, Repr

/-- An error: its kind, the number of the offending token, and the symbol it refers to. -/
structure ErrorOutline where
  kind : String
  site : Option Nat
  target : Option SymbolOutline
deriving DecidableEq, Repr

/-- Parents and kinds of all scopes by number, the symbols in order and the errors in order. -/
structure ResolutionOutline where
  scopes : List (Option ScopeId × ScopeKind)
  symbols : List SymbolOutline
  errors : List ErrorOutline
deriving DecidableEq, Repr

section

variable (index : Token → Nat)

def Symbol.outline (s : Symbol) : SymbolOutline := ⟨index s.name, s.kind, s.scope⟩

def SemanticError.outline (e : SemanticError) : ErrorOutline :=
  ⟨e.kindName, e.site?.map index, e.symbol?.map (Symbol.outline index)⟩

def Resolution.outline (r : Resolution) : ResolutionOutline where
  scopes := r.scopes.outlines
  symbols := r.symbols.entries.toList.map (Symbol.outline index)
  errors := r.errors.toList.map (SemanticError.outline index)

end

/-! ### Meaning of relocated names -/

variable {g : Position → Position} {es : List Event} {e : Event} {i : ScopeId} {n : String}
  {d : Declared} {nest : Nest}

theorem declared?_relocate (e : Event) :
    (e.relocate g).declared? = e.declared?.map (Declared.relocate g) := by
  obtain ⟨nest, happening⟩ := e
  cases happening with
  | declares kind name declaration => rfl
  | uses usage name => rfl
  | begins kind construct place => rfl

theorem firstIn_relocate (es : List Event) (i : ScopeId) (n : String) :
    firstIn (es.map (Event.relocate g)) i n = (firstIn es i n).map (Declared.relocate g) := by
  have hdeclared : (es.map (Event.relocate g)).filterMap Event.declared? =
      (es.filterMap Event.declared?).map (Declared.relocate g) := by
    rw [List.filterMap_map, List.map_filterMap]
    exact List.filterMap_congr fun e _ => declared?_relocate e
  rw [firstIn, hdeclared, List.find?_map]
  rfl

theorem meaning_relocate (es : List Event) (nest : Nest) (n : String) :
    meaning (es.map (Event.relocate g)) nest n =
      (meaning es nest n).map (Declared.relocate g) := by
  rw [meaning, meaning, List.map_findSome?]
  apply ScopeTree.findSome?_congr
  intro i _
  exact firstIn_relocate es i n

theorem withEarlier_relocate (earlier es : List Event) :
    withEarlier (earlier.map (Event.relocate g)) (es.map (Event.relocate g)) =
      (withEarlier earlier es).map (Prod.map (List.map (Event.relocate g)) (Event.relocate g)) := by
  induction es generalizing earlier with
  | nil => rfl
  | cons e es ih =>
    have hrest := ih (earlier ++ [e])
    rw [List.map_append] at hrest
    rw [List.map_cons, withEarlier, withEarlier, List.map_cons]
    exact congrArg _ hrest

/-- What is picked from events and those before them, when both pick alike. -/
theorem filterMap_withEarlier_relocate {α : Type} {f f' : List Event × Event → Option α}
    (h : ∀ earlier e, (earlier, e) ∈ withEarlier [] es →
      f' (earlier.map (Event.relocate g), e.relocate g) = f (earlier, e)) :
    (withEarlier [] (es.map (Event.relocate g))).filterMap f' =
      (withEarlier [] es).filterMap f := by
  have hearlier := withEarlier_relocate (g := g) [] es
  rw [List.map_nil] at hearlier
  rw [hearlier, List.filterMap_map]
  apply List.filterMap_congr
  rintro ⟨earlier, e⟩ hmem
  exact h earlier e hmem

theorem openings_relocate (es : List Event) :
    openings (es.map (Event.relocate g)) = openings es := by
  rw [openings, List.filterMap_map, openings]
  congr 1
  apply List.filterMap_congr
  rintro ⟨nest, happening⟩ _
  cases happening with
  | declares kind name declaration => rfl
  | uses usage name => rfl
  | begins kind construct place => rfl

theorem firstAt_relocate (earlier : List Event) (e : Event) :
    firstAt (earlier.map (Event.relocate g)) (e.relocate g) =
      (firstAt earlier e).map (Declared.relocate g) := by
  rw [firstAt, declared?_relocate, firstAt]
  cases e.declared? with
  | none => rfl
  | some d =>
    have hsame := firstIn_relocate (g := g) earlier d.scope d.name.text
    cases hfirst : firstIn earlier d.scope d.name.text with
    | none =>
      rw [hfirst] at hsame
      simp [Option.filter, Declared.relocate, Token.relocate, hfirst, hsame]
    | some first =>
      rw [hfirst] at hsame
      simp [Option.filter, Declared.relocate, Token.relocate, hfirst, hsame]

theorem firsts_relocate (es : List Event) :
    firsts (es.map (Event.relocate g)) = (firsts es).map (Declared.relocate g) := by
  rw [firsts, firsts, List.map_filterMap]
  apply filterMap_withEarlier_relocate
  intro earlier e _
  exact firstAt_relocate earlier e

/-! ### Names in events -/

theorem name_mem_of_firstIn (h : firstIn es i n = some d) : d.name ∈ names es := by
  obtain ⟨-, -, e, he, hdeclared⟩ := firstIn_eq_some h
  exact name_mem_names he hdeclared

theorem name_mem_of_meaning (h : meaning es nest n = some d) : d.name ∈ names es := by
  obtain ⟨i, -, hfirst⟩ := meaning_eq_some h
  exact name_mem_of_firstIn hfirst

theorem names_of_mem_withEarlier {earlier : List Event} (h : (earlier, e) ∈ withEarlier [] es) :
    names earlier ⊆ names es ∧ ∀ t ∈ e.name?, t ∈ names es := by
  obtain ⟨front, rest, rfl, rfl⟩ := mem_withEarlier h
  constructor
  · rw [names_append]
    exact List.subset_append_left _ _
  · intro t ht
    exact List.mem_filterMap.mpr ⟨e, List.mem_append_right _ (List.mem_cons_self ..), ht⟩

/-! ### Outlines of errors -/

section

variable {index index' : Token → Nat} {t t' : ScopeTree}

/-- Errors of one kind, about names and symbols with the same numbers. -/
theorem SemanticError.outline_eq {x x' : SemanticError} (hkind : x'.kindName = x.kindName)
    (hsite : x'.site?.map index' = x.site?.map index)
    (htarget : x'.symbol?.map (Symbol.outline index') = x.symbol?.map (Symbol.outline index)) :
    x'.outline index' = x.outline index := by
  rw [outline, outline, hkind, hsite, htarget]

theorem symbol_outline (hname : index' (d.name.relocate g) = index d.name) :
    ((d.relocate g).symbol t').outline index' = (d.symbol t).outline index := by
  show SymbolOutline.mk _ _ _ = SymbolOutline.mk _ _ _
  congr 1

theorem useError_outline {usage : Usage} {name : Token}
    (hname : index' (name.relocate g) = index name)
    (htarget : index' (d.name.relocate g) = index d.name) :
    (useError (Declared.symbol t') (usage.relocate g) (name.relocate g) (d.relocate g)).map
        (SemanticError.outline index') =
      (useError (Declared.symbol t) usage name d).map (SemanticError.outline index) := by
  have hkind : (d.relocate g).kind = d.kind := rfl
  have hsymbol : ((d.relocate g).symbol t').outline index' = (d.symbol t).outline index :=
    symbol_outline htarget
  cases usage with
  | value =>
    simp only [Usage.relocate, useError, hkind]
    by_cases hprocedure : d.kind = .procedure
    · rw [if_pos hprocedure, if_pos hprocedure]
      exact congrArg some
        (SemanticError.outline_eq rfl (congrArg some hname) (congrArg some hsymbol))
    · rw [if_neg hprocedure, if_neg hprocedure]
      rfl
  | call asValue span =>
    simp only [Usage.relocate, useError, hkind]
    by_cases hvar : d.kind = .var
    · rw [if_pos hvar, if_pos hvar]
      exact congrArg some
        (SemanticError.outline_eq rfl (congrArg some hname) (congrArg some hsymbol))
    · rw [if_neg hvar, if_neg hvar]
      by_cases hvalue : asValue = true ∧ d.kind = .procedure
      · rw [if_pos hvalue, if_pos hvalue]
        exact congrArg some
          (SemanticError.outline_eq rfl (congrArg some hname) (congrArg some hsymbol))
      · rw [if_neg hvalue, if_neg hvalue]
        rfl
  | assigned span =>
    simp only [Usage.relocate, useError, hkind]
    by_cases hvar : d.kind ≠ .var
    · rw [if_pos hvar, if_pos hvar]
      exact congrArg some
        (SemanticError.outline_eq rfl (congrArg some hname) (congrArg some hsymbol))
    · rw [if_neg hvar, if_neg hvar]
      rfl

theorem errorAt_outline (hearlier : ∀ t ∈ names es, index' (t.relocate g) = index t)
    (hname : ∀ t ∈ e.name?, index' (t.relocate g) = index t) :
    (errorAt (Declared.symbol t') (es.map (Event.relocate g)) (e.relocate g)).map
        (SemanticError.outline index') =
      (errorAt (Declared.symbol t) es e).map (SemanticError.outline index) := by
  obtain ⟨nest, happening⟩ := e
  cases happening with
  | declares kind name declaration =>
    show ((firstIn _ nest.scope name.text).map _).map _ =
      ((firstIn es nest.scope name.text).map _).map _
    rw [firstIn_relocate, Option.map_map, Option.map_map, Option.map_map]
    apply Option.map_congr
    intro d hd
    have htarget := hearlier d.name (name_mem_of_firstIn hd)
    exact SemanticError.outline_eq rfl (congrArg some (hname name rfl))
      (congrArg some (symbol_outline htarget))
  | uses usage name =>
    show ((meaning _ nest name.text).bind _).map _ = ((meaning es nest name.text).bind _).map _
    rw [meaning_relocate]
    cases hd : meaning es nest name.text with
    | none => rfl
    | some d =>
      exact useError_outline (hname name rfl) (hearlier d.name (name_mem_of_meaning hd))
  | begins kind construct place => rfl

theorem unboundAt_relocate (earlier : List Event) (e : Event) :
    unboundAt (earlier.map (Event.relocate g)) (e.relocate g) =
      (unboundAt earlier e).map (Token.relocate g) := by
  obtain ⟨nest, happening⟩ := e
  cases happening with
  | declares kind name declaration => rfl
  | uses usage name =>
    have hmeaning := meaning_relocate (g := g) earlier nest name.text
    show (if meaning _ nest name.text = none then _ else _) =
      (if meaning earlier nest name.text = none then _ else _ : Option Token).map _
    rw [hmeaning]
    cases meaning earlier nest name.text with
    | none => rfl
    | some d => rfl
  | begins kind construct place => rfl

theorem name_of_unboundAt {earlier : List Event} {name : Token}
    (h : unboundAt earlier e = some name) : e.name? = some name := by
  obtain ⟨nest, happening⟩ := e
  cases happening with
  | declares kind name declaration => cases h
  | uses usage name =>
    unfold unboundAt at h
    dsimp only at h
    split at h
    · exact h
    · cases h
  | begins kind construct place => cases h

/-- A use without a meaning, and what its name means among all events. -/
theorem unboundError_outline {earlier : List Event}
    (hall : ∀ t ∈ names es, index' (t.relocate g) = index t)
    (hname : ∀ t ∈ e.name?, index' (t.relocate g) = index t) :
    ((unboundAt (earlier.map (Event.relocate g)) (e.relocate g)).map fun name =>
        SemanticError.useBeforeDefinition name
          ((meaning (es.map (Event.relocate g)) e.nest name.text).map (Declared.symbol t'))).map
        (SemanticError.outline index') =
      ((unboundAt earlier e).map fun name =>
        SemanticError.useBeforeDefinition name
          ((meaning es e.nest name.text).map (Declared.symbol t))).map
        (SemanticError.outline index) := by
  rw [unboundAt_relocate, Option.map_map, Option.map_map, Option.map_map]
  apply Option.map_congr
  intro name hunbound
  have hsite := hname name (name_of_unboundAt hunbound)
  have hmeaning : (meaning (es.map (Event.relocate g)) e.nest name.text).map
      (Symbol.outline index' ∘ Declared.symbol t') =
        (meaning es e.nest name.text).map (Symbol.outline index ∘ Declared.symbol t) := by
    rw [meaning_relocate, Option.map_map]
    apply Option.map_congr
    intro d hd
    exact symbol_outline (hall d.name (name_mem_of_meaning hd))
  refine SemanticError.outline_eq rfl (congrArg some hsite) ?_
  exact (Option.map_map ..).trans (hmeaning.trans (Option.map_map ..).symm)

theorem mainErrors_relocate (es : List Event) :
    mainErrors (es.map (Event.relocate g)) = mainErrors es := by
  rw [mainErrors, firstIn_relocate, mainErrors]
  cases firstIn es ScopeTree.root "main" with
  | none => rfl
  | some d => rfl

/-- No token and no symbol is to blame for a missing entry point. -/
theorem mainErrors_outline (es : List Event) :
    (mainErrors es).map (SemanticError.outline index') =
      (mainErrors es).map (SemanticError.outline index) := by
  unfold mainErrors
  split
  · rfl
  · rfl

/-- **The errors of relocated events have the same outline**, when relocated names have the same
    numbers. -/
theorem scopingErrors_outline (h : ∀ t ∈ names es, index' (t.relocate g) = index t) :
    (scopingErrors (Declared.symbol t') (es.map (Event.relocate g))).map
        (SemanticError.outline index') =
      (scopingErrors (Declared.symbol t) es).map (SemanticError.outline index) := by
  have hwalk : (walkErrors (Declared.symbol t') (es.map (Event.relocate g))).map
      (SemanticError.outline index') =
        (walkErrors (Declared.symbol t) es).map (SemanticError.outline index) := by
    rw [walkErrors, walkErrors, List.map_filterMap, List.map_filterMap]
    apply filterMap_withEarlier_relocate
    intro earlier e hmem
    obtain ⟨hearlier, hname⟩ := names_of_mem_withEarlier hmem
    exact errorAt_outline (fun t ht => h t (hearlier ht)) fun t ht => h t (hname t ht)
  have hunbound : (unboundErrors (Declared.symbol t') (es.map (Event.relocate g))).map
      (SemanticError.outline index') =
        (unboundErrors (Declared.symbol t) es).map (SemanticError.outline index) := by
    rw [unboundErrors, unboundErrors, List.map_filterMap, List.map_filterMap]
    apply filterMap_withEarlier_relocate
    intro earlier e hmem
    obtain ⟨-, hname⟩ := names_of_mem_withEarlier hmem
    exact unboundError_outline h fun t ht => h t (hname t ht)
  have hmain : (mainErrors es).map (SemanticError.outline index') =
      (mainErrors es).map (SemanticError.outline index) := mainErrors_outline es
  simp only [scopingErrors, mainErrors_relocate, List.map_append, hwalk, hunbound, hmain]

end

end TarnLang
