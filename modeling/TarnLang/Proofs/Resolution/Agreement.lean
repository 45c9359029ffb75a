/-
  TarnLang/Proofs/Resolution/Agreement.lean
  =========================================
  **The walk agrees with lexical scoping.**  `Walk.Follows` relates the state of a walk to the
  events it has met and to the scopes it stands in: scopes are numbered as the events count
  them, a scope binds a name exactly when one of the events declares it there, the symbols
  are those of first declarations, and errors and uses put off are those of the events.

  Two scopes side by side never have one name, because a block and a callable that could not
  be declared are named by their place, and a callable that was declared is the first of its
  name.  So qualified names never alias, and a symbol that is looked up by its qualified name
  is the symbol that was meant.  Each step of the walk keeps the relation, and so does the
  walk over a node, by induction on the node.
-/
import TarnLang.Proofs.Resolution.ScopeTree
import TarnLang.Proofs.Resolution.Scoping

namespace TarnLang

/-! ### Symbols of declarations -/

namespace Declared

def id (t : ScopeTree) (d : Declared) : SymbolId :=
  ⟨d.name.text, d.scope, t.qualify d.scope d.name.text⟩

/-- The symbol that a declaration makes. -/
def symbol (t : ScopeTree) (d : Declared) : Symbol := ⟨d.id t, d.kind, d.name, d.declaration⟩

variable {t t' : ScopeTree}

theorem id_congr {d : Declared} (h : t'.path d.scope = t.path d.scope) :
    d.id t' = d.id t := by
  rw [id, id, ScopeTree.qualify, ScopeTree.qualify, h]

theorem symbol_congr {d : Declared} (h : t'.path d.scope = t.path d.scope) :
    d.symbol t' = d.symbol t := by
  rw [symbol, symbol, id_congr h]

theorem id_of_skeleton (h : ∀ i, t'.skeleton? i = t.skeleton? i) : id t' = id t :=
  funext fun _ => id_congr (ScopeTree.path_congr fun i _ => h i)

theorem symbol_of_skeleton (h : ∀ i, t'.skeleton? i = t.skeleton? i) : symbol t' = symbol t :=
  funext fun _ => symbol_congr (ScopeTree.path_congr fun i _ => h i)

end Declared

/-! ### The relation -/

/-- Where the name of a scope with a given parent comes from. -/
inductive NameFrom (es : List Event) : Option ScopeId → String → Prop
  | outermost : NameFrom es none ScopeTree.rootName
  | placed {parent : Option ScopeId} (base : String) (place : Position) (hbase : IsWord base)
      (hplace : place ∈ places es) : NameFrom es parent (placedName base place)
  | declared {p : ScopeId} {name : String} (hword : IsWord name)
      (hfirst : (firstIn es p name).isSome) : NameFrom es (some p) name

/-- The uses that are put off. -/
def putOff (es : List Event) : List DeferredUse :=
  (withEarlier [] es).filterMap fun (earlier, e) =>
    (unboundAt earlier e).map fun name => ⟨name, e.nest.scope⟩

structure Walk.Follows (w : Walk) (es : List Event) (nest : Nest) : Prop where
  fit : Fit es
  tree : w.scopes.WellFormed
  distinct : w.scopes.Distinct
  names : ∀ {i s}, w.scopes.get? i = some s → NameFrom es s.parent s.name
  size_eq : w.scopes.size = scopesIn es + 1
  chain_eq : w.scopes.chain w.scopes.current = nest.chain
  nests : ∀ e ∈ es, e.nest.scope < w.scopes.size ∧ w.scopes.chain e.nest.scope = e.nest.chain
  binding?_eq : ∀ i n, w.scopes.binding? i n = (firstIn es i n).map (Declared.id w.scopes)
  mem_symbols : ∀ s, s ∈ w.symbols.entries ↔ ∃ d, IsFirst es d ∧ d.symbol w.scopes = s
  errors_eq : w.errors.toList = walkErrors (Declared.symbol w.scopes) es
  deferred_eq : w.deferred.toList = putOff es

variable {w w' : Walk} {es es' : List Event} {e : Event} {nest : Nest} {i : ScopeId} {n : String}
  {d : Declared}

/-! ### Names of scopes -/

namespace NameFrom

variable {parent : Option ScopeId} {p : ScopeId} {name : String}

/-- Names keep their origin as more is met. -/
theorem append (h : NameFrom es parent name) (es' : List Event) :
    NameFrom (es ++ es') parent name := by
  cases h with
  | outermost => exact .outermost
  | placed base place hbase hplace =>
    apply NameFrom.placed base place hbase
    rw [places_append]
    exact List.mem_append_left _ hplace
  | declared hword hfirst =>
    apply NameFrom.declared hword
    obtain ⟨d, hd⟩ := Option.isSome_iff_exists.mp hfirst
    rw [firstIn_append, hd]
    rfl

theorem segment (h : NameFrom es parent name) : Segment name.toList := by
  cases h with
  | outermost =>
    have hword : IsWord ScopeTree.rootName := by decide
    exact hword.segment
  | placed base place hbase _ => exact hbase.segment_placedName place
  | declared hword _ => exact hword.segment

/-- No scope inside another is named by a place where none has begun yet. -/
theorem ne_placedName {base : String} {place : Position} (h : NameFrom es (some p) name)
    (hbase : IsWord base) (hplace : place ∉ places es) : name ≠ placedName base place := by
  intro heq
  cases h with
  | placed base' place' hbase' hplace' =>
    obtain rfl := placedName_injective hbase' hbase heq
    exact hplace hplace'
  | declared hword _ =>
    rw [heq] at hword
    exact hword.not_mem (by decide) (at_mem_placedName base place)

/-- No scope inside another is named by a word that is not declared there yet. -/
theorem ne_word (h : NameFrom es (some p) name) (hn : IsWord n) (hnone : firstIn es p n = none) :
    name ≠ n := by
  rintro rfl
  cases h with
  | placed base place _ _ => exact hn.not_mem (by decide) (at_mem_placedName base place)
  | declared _ hfirst =>
    rw [hnone] at hfirst
    cases hfirst

end NameFrom

/-! ### Looking up -/

namespace Walk.Follows

theorem scope_eq (h : w.Follows es nest) : w.scopes.current = nest.scope := by
  obtain ⟨s, hs⟩ := ScopeTree.get?_of_lt h.tree.current_lt
  have hchain := h.chain_eq
  rw [ScopeTree.chain_eq h.tree hs] at hchain
  exact (List.cons.inj hchain).1

/-- What is declared is a word, in a scope of the tree. -/
theorem of_firstIn (h : w.Follows es nest) (hd : firstIn es i n = some d) :
    d.scope = i ∧ d.name.text = n ∧ i < w.scopes.size ∧ IsWord n := by
  obtain ⟨hscope, hname, e, he, hdeclared⟩ := firstIn_eq_some hd
  have hlt := (h.nests e he).1
  rw [← Event.scope_of_declared? hdeclared, hscope] at hlt
  have hword := (h.fit.worded e he).of_declared? hdeclared
  rw [hname] at hword
  exact ⟨hscope, hname, hlt, hword⟩

theorem qualify_injective (h : w.Follows es nest) {j : ScopeId} {m : String}
    (hi : i < w.scopes.size) (hj : j < w.scopes.size) (hn : IsWord n) (hm : IsWord m)
    (heq : w.scopes.qualify i n = w.scopes.qualify j m) : i = j ∧ n = m := by
  apply ScopeTree.qualify_injective h.tree h.distinct _ hi hj hn hm heq
  intro i s hs
  exact (h.names hs).segment

/-- **The symbol with a qualified name is the one declared first under it.** -/
theorem get?_qualify (h : w.Follows es nest) (hi : i < w.scopes.size) (hn : IsWord n) :
    w.symbols.get? (w.scopes.qualify i n) =
      (firstIn es i n).map (Declared.symbol w.scopes) := by
  cases hget : w.symbols.get? (w.scopes.qualify i n) with
  | none =>
    cases hd : firstIn es i n with
    | none => rfl
    | some d =>
      obtain ⟨rfl, rfl, -, -⟩ := h.of_firstIn hd
      have hmem := (h.mem_symbols (d.symbol w.scopes)).mpr ⟨d, hd, rfl⟩
      have hne := Array.find?_eq_none.mp hget _ hmem
      exact absurd (decide_eq_true rfl) hne
  | some s =>
    -- the symbol was declared under its qualified name, which no other name in no other scope has
    have hmem := Array.mem_of_find?_eq_some hget
    have hqualified : s.id.qualified = w.scopes.qualify i n := by
      rw [SymbolTable.get?] at hget
      simpa using Array.find?_some hget
    obtain ⟨d, hd, rfl⟩ := (h.mem_symbols s).mp hmem
    have hd : firstIn es d.scope d.name.text = some d := hd
    obtain ⟨-, -, hscope, hword⟩ := h.of_firstIn hd
    obtain ⟨rfl, rfl⟩ := h.qualify_injective hscope hi hword hn hqualified
    rw [hd]
    rfl

/-- A lookup from any scope finds the first declaration in the nearest scope that has one. -/
theorem symbol_lookupFrom (h : w.Follows es nest) (i : ScopeId) (n : String) :
    ((w.scopes.lookupFrom i n).bind fun id => w.symbols.get? id.qualified) =
      ((w.scopes.chain i).findSome? (firstIn es · n)).map (Declared.symbol w.scopes) := by
  have hids : (w.scopes.chain i).findSome? (w.scopes.binding? · n) =
      ((w.scopes.chain i).findSome? (firstIn es · n)).map (Declared.id w.scopes) := by
    rw [List.map_findSome?]
    apply ScopeTree.findSome?_congr
    intro j _
    exact h.binding?_eq j n
  rw [ScopeTree.lookupFrom_eq h.tree, hids]
  cases hd : (w.scopes.chain i).findSome? (firstIn es · n) with
  | none => rfl
  | some d =>
    obtain ⟨j, -, hfirst⟩ := List.exists_of_findSome?_eq_some hd
    obtain ⟨rfl, rfl, hj, hn⟩ := h.of_firstIn hfirst
    show w.symbols.get? (w.scopes.qualify d.scope d.name.text) = _
    rw [h.get?_qualify hj hn, hfirst]

theorem lookup_eq (h : w.Follows es nest) (name : Token) :
    w.lookup name = (meaning es nest name.text).map (Declared.symbol w.scopes) := by
  show ((w.scopes.lookupFrom w.scopes.current name.text).bind _) = _
  rw [h.symbol_lookupFrom, h.chain_eq]
  rfl

end Walk.Follows

/-! ### Uses and declarations -/

theorem putOff_snoc (es : List Event) (e : Event) :
    putOff (es ++ [e]) =
      putOff es ++ ((unboundAt es e).map fun name => ⟨name, e.nest.scope⟩).toList := by
  rw [putOff, withEarlier_append, List.filterMap_append]
  cases h : unboundAt es e with
  | none => simp [putOff, withEarlier, h]
  | some name => simp [putOff, withEarlier, h]

namespace Walk

def use (w : Walk) : Usage → Token → Walk
  | .value, name => w.useName name
  | .call asValue span, name => w.useCall asValue name span
  | .assigned span, name => w.useAssigned name span

theorem use_of_none {name : Token} (h : w.lookup name = none) (usage : Usage) :
    w.use usage name = w.defer name := by
  cases usage with
  | value => simp only [use, useName, h]
  | call asValue span => simp only [use, useCall, h]
  | assigned span => simp only [use, useAssigned, h]

theorem use_of_some {name : Token} {t : ScopeTree} (h : w.lookup name = some (d.symbol t))
    (usage : Usage) :
    w.use usage name = (useError (Declared.symbol t) usage name d).elim w w.report := by
  cases usage with
  | value =>
    simp only [use, useName, h, useError]
    by_cases hkind : d.kind = .procedure
    · simp [Declared.symbol, hkind]
    · simp [Declared.symbol, hkind]
  | call asValue span =>
    simp only [use, useCall, h, useError]
    by_cases hvar : d.kind = .var
    · simp [Declared.symbol, hvar]
    · by_cases hvalue : asValue = true ∧ d.kind = .procedure
      · simp [Declared.symbol, hvalue]
      · simp [Declared.symbol, hvar, hvalue]
  | assigned span =>
    simp only [use, useAssigned, h, useError]
    cases hkind : d.kind with
    | var => simp [Declared.symbol, hkind, SymbolKind.isCallable]
    | procedure => simp [Declared.symbol, hkind, SymbolKind.isCallable]
    | function => simp [Declared.symbol, hkind, SymbolKind.isCallable]
    | mainFunction => simp [Declared.symbol, hkind, SymbolKind.isCallable]

theorem declare_of_some {name : Token} {s : Symbol}
    (h : w.symbols.get? (w.scopes.qualify w.scopes.current name.text) = some s)
    (kind : SymbolKind) (declaration : Declaration) :
    w.declare name kind declaration = (false, w.report (.redefinition name s)) := by
  simp [declare, SymbolTable.insert, h]

theorem declare_of_none {name : Token} {kind : SymbolKind} {declaration : Declaration}
    (h : w.symbols.get? (w.scopes.qualify w.scopes.current name.text) = none)
    (hd : d = ⟨w.scopes.current, kind, name, declaration⟩) :
    w.declare name kind declaration =
      (true, ⟨(w.scopes.define name.text (d.id w.scopes)).2,
        ⟨w.symbols.entries.push (d.symbol w.scopes)⟩, w.errors, w.deferred⟩) := by
  subst hd
  simp [declare, SymbolTable.insert, h, Declared.id, Declared.symbol]

namespace Follows

/-- A step that opens no scope and declares nothing new. -/
theorem snoc (h : w.Follows es e.nest) (hfit : Fit (es ++ [e])) (hcount : scopesIn [e] = 0)
    (hfirst : ∀ i n, firstIn (es ++ [e]) i n = firstIn es i n) (hscopes : w'.scopes = w.scopes)
    (hsymbols : w'.symbols = w.symbols)
    (herrors : w'.errors.toList =
      w.errors.toList ++ (errorAt (Declared.symbol w.scopes) es e).toList)
    (hdeferred : w'.deferred.toList =
      w.deferred.toList ++ ((unboundAt es e).map fun name => ⟨name, e.nest.scope⟩).toList) :
    w'.Follows (es ++ [e]) e.nest := by
  obtain ⟨scopes, symbols, errors, deferred⟩ := w'
  obtain rfl : scopes = w.scopes := hscopes
  obtain rfl : symbols = w.symbols := hsymbols
  refine ⟨hfit, h.tree, h.distinct, ?_, ?_, h.chain_eq, ?_, ?_, ?_, ?_, ?_⟩
  · intro i s hs
    exact (h.names hs).append [e]
  · rw [scopesIn_append, hcount]
    exact h.size_eq
  · intro e' he'
    rcases List.mem_append.mp he' with he' | he'
    · exact h.nests e' he'
    · rw [List.mem_singleton.mp he', ← h.scope_eq]
      exact ⟨h.tree.current_lt, h.chain_eq⟩
  · intro i n
    rw [hfirst]
    exact h.binding?_eq i n
  · intro s
    simp only [IsFirst, hfirst]
    exact h.mem_symbols s
  · rw [walkErrors_snoc, ← h.errors_eq]
    exact herrors
  · rw [putOff_snoc, ← h.deferred_eq]
    exact hdeferred

theorem uses (h : w.Follows es nest) (usage : Usage) (name : Token)
    (hfit : Fit (es ++ [⟨nest, .uses usage name⟩])) :
    (w.use usage name).Follows (es ++ [⟨nest, .uses usage name⟩]) nest := by
  have hfirst : ∀ i n, firstIn (es ++ [⟨nest, .uses usage name⟩]) i n = firstIn es i n :=
    fun i n => firstIn_snoc_of_none rfl
  have hlookup := h.lookup_eq name
  cases hmeaning : meaning es nest name.text with
  | none =>
    rw [hmeaning] at hlookup
    rw [use_of_none hlookup]
    apply h.snoc (e := ⟨nest, .uses usage name⟩) hfit rfl hfirst
    · rfl
    · rfl
    · simp [errorAt, hmeaning, defer]
    · simp [unboundAt, hmeaning, defer, h.scope_eq]
  | some d =>
    rw [hmeaning] at hlookup
    rw [use_of_some hlookup]
    cases herror : useError (Declared.symbol w.scopes) usage name d with
    | none =>
      apply h.snoc (e := ⟨nest, .uses usage name⟩) hfit rfl hfirst
      · rfl
      · rfl
      · simp [errorAt, hmeaning, herror]
      · simp [unboundAt, hmeaning]
    | some x =>
      apply h.snoc (e := ⟨nest, .uses usage name⟩) hfit rfl hfirst
      · rfl
      · rfl
      · simp [errorAt, hmeaning, herror, report]
      · simp [unboundAt, hmeaning, report]

/-- The first declaration of a name in a scope. -/
theorem declares_of_none (h : w.Follows es nest) {kind : SymbolKind} {name : Token}
    {declaration : Declaration} (hfit : Fit (es ++ [⟨nest, .declares kind name declaration⟩]))
    (hd : d = ⟨w.scopes.current, kind, name, declaration⟩)
    (hnone : firstIn es nest.scope name.text = none) :
    Follows ⟨(w.scopes.define name.text (d.id w.scopes)).2,
      ⟨w.symbols.entries.push (d.symbol w.scopes)⟩, w.errors, w.deferred⟩
      (es ++ [⟨nest, .declares kind name declaration⟩]) nest := by
  -- binding a name leaves every skeleton as it is, and with these what symbols look like
  have hskeleton := ScopeTree.skeleton?_define w.scopes name.text (d.id w.scopes)
  have hid := Declared.id_of_skeleton hskeleton
  have hsymbol := Declared.symbol_of_skeleton hskeleton
  have hchain := fun i => ScopeTree.chain_congr (i := i) fun j _ => hskeleton j
  have hcurrent := ScopeTree.current_define w.scopes name.text (d.id w.scopes)
  have hsize := ScopeTree.size_define w.scopes name.text (d.id w.scopes)
  have hdeclared : Event.declared? ⟨nest, .declares kind name declaration⟩ = some d := by
    rw [hd, h.scope_eq]
    rfl
  rw [← h.scope_eq] at hnone
  have hfresh : w.scopes.binding? w.scopes.current name.text = none := by
    rw [h.binding?_eq, hnone]
    rfl
  refine ⟨hfit, h.tree.define _ _, h.distinct.of_skeleton hskeleton, ?_, ?_,
    ?_, ?_, ?_, ?_, ?_, ?_⟩
  · intro i s hs
    obtain ⟨s', hs', -, hname, hparent⟩ := ScopeTree.exists_of_skeleton? (hskeleton i) hs
    rw [← hname, ← hparent]
    exact (h.names hs').append _
  · rw [hsize, scopesIn_append]
    exact h.size_eq
  · rw [hchain, hcurrent]
    exact h.chain_eq
  · intro e he
    rw [hsize, hchain]
    rcases List.mem_append.mp he with he | he
    · exact h.nests e he
    · rw [List.mem_singleton.mp he, ← h.scope_eq]
      exact ⟨h.tree.current_lt, h.chain_eq⟩
  · intro i n
    rw [ScopeTree.binding?_define h.tree _ hfresh, firstIn_snoc_of_some hdeclared, hid]
    by_cases hi : w.scopes.current = i ∧ n = name.text
    · obtain ⟨rfl, rfl⟩ := hi
      simp [hnone, hd]
    · have hne : ¬ (d.scope = i ∧ d.name.text = n) := by
        rintro ⟨rfl, rfl⟩
        exact hi (by simp [hd])
      rw [if_neg hi, if_neg hne, Option.or_none]
      exact h.binding?_eq i n
  · intro s
    rw [Array.mem_push, h.mem_symbols, hsymbol]
    have hnone' : firstIn es d.scope d.name.text = none := by
      rw [hd]
      exact hnone
    simp only [isFirst_snoc_iff hdeclared hnone']
    constructor
    · rintro (⟨d', hd', rfl⟩ | rfl)
      · exact ⟨d', Or.inl hd', rfl⟩
      · exact ⟨d, Or.inr rfl, rfl⟩
    · rintro ⟨d', hd' | rfl, rfl⟩
      · exact Or.inl ⟨d', hd', rfl⟩
      · exact Or.inr rfl
  · rw [walkErrors_snoc, hsymbol]
    show w.errors.toList = _
    rw [h.errors_eq]
    simp [errorAt, ← h.scope_eq, hnone]
  · rw [putOff_snoc]
    show w.deferred.toList = _
    rw [h.deferred_eq]
    simp [unboundAt]

theorem get?_of_declares (h : w.Follows es nest) {kind : SymbolKind} {name : Token}
    {declaration : Declaration} (hfit : Fit (es ++ [⟨nest, .declares kind name declaration⟩])) :
    w.symbols.get? (w.scopes.qualify w.scopes.current name.text) =
      (firstIn es nest.scope name.text).map (Declared.symbol w.scopes) := by
  have hword : IsWord name.text := hfit.last
  rw [h.get?_qualify h.tree.current_lt hword, h.scope_eq]

theorem declares (h : w.Follows es nest) (kind : SymbolKind) (name : Token)
    (declaration : Declaration) (hfit : Fit (es ++ [⟨nest, .declares kind name declaration⟩])) :
    (w.declare name kind declaration).2.Follows
      (es ++ [⟨nest, .declares kind name declaration⟩]) nest := by
  have hget := h.get?_of_declares hfit
  cases hfirst : firstIn es nest.scope name.text with
  | none =>
    rw [hfirst] at hget
    rw [declare_of_none hget rfl]
    exact h.declares_of_none hfit rfl hfirst
  | some d =>
    rw [hfirst] at hget
    rw [declare_of_some hget]
    have hsome : (firstIn es nest.scope name.text).isSome := by
      rw [hfirst]
      rfl
    apply h.snoc (e := ⟨nest, .declares kind name declaration⟩) hfit rfl
    · exact firstIn_snoc_of_isSome rfl hsome
    · rfl
    · rfl
    · simp [errorAt, hfirst, report]
    · simp [unboundAt, report]

/-- Whether a name could be declared. -/
theorem declare_fst (h : w.Follows es nest) {kind : SymbolKind} {name : Token}
    {declaration : Declaration} (hfit : Fit (es ++ [⟨nest, .declares kind name declaration⟩])) :
    (w.declare name kind declaration).1 = (firstIn es nest.scope name.text).isNone := by
  have hget := h.get?_of_declares hfit
  cases hfirst : firstIn es nest.scope name.text with
  | none =>
    rw [hfirst] at hget
    rw [declare_of_none hget rfl]
    rfl
  | some d =>
    rw [hfirst] at hget
    rw [declare_of_some hget]
    rfl

/-! ### Scopes that begin and end -/

/-- A scope begins, with a name that no scope beside it has. -/
theorem begins (h : w.Follows es nest) {kind : ScopeKind} {construct name : String}
    {place : Position} (hfit : Fit (es ++ [⟨nest, .begins kind construct place⟩]))
    (hname : NameFrom (es ++ [⟨nest, .begins kind construct place⟩]) (some w.scopes.current) name)
    (hfresh : ∀ {i s}, w.scopes.get? i = some s → s.parent = some w.scopes.current →
      s.name ≠ name) :
    (w.enter name kind).Follows (es ++ [⟨nest, .begins kind construct place⟩])
      (nest.inside (scopesIn es + 1)) := by
  -- the scope that begins has a number of its own, so nothing changes for those before it
  have hpath : ∀ i < w.scopes.size, (w.scopes.push name kind).path i = w.scopes.path i :=
    fun i hi => ScopeTree.path_push_of_lt hi name kind
  have hchain : ∀ i < w.scopes.size, (w.scopes.push name kind).chain i = w.scopes.chain i :=
    fun i hi => ScopeTree.chain_push_of_lt hi name kind
  have hlt : ∀ {i}, i < w.scopes.size → i < (w.scopes.push name kind).size := by
    intro i hi
    rw [ScopeTree.size_push]
    exact Nat.lt_succ_of_lt hi
  have hfirst : ∀ i n, firstIn (es ++ [⟨nest, .begins kind construct place⟩]) i n =
      firstIn es i n := fun i n => firstIn_snoc_of_none rfl
  have hid : ∀ {i n d}, firstIn es i n = some d →
      d.id (w.scopes.push name kind) = d.id w.scopes := by
    intro i n d hd
    obtain ⟨rfl, -, hi, -⟩ := h.of_firstIn hd
    exact Declared.id_congr (hpath _ hi)
  have hsymbol : ∀ {i n d}, firstIn es i n = some d →
      d.symbol (w.scopes.push name kind) = d.symbol w.scopes := by
    intro i n d hd
    rw [Declared.symbol, hid hd, Declared.symbol]
  refine ⟨hfit, h.tree.push name kind, h.distinct.push h.tree kind hfresh, ?_,
    ?_, ?_, ?_, ?_, ?_, ?_, ?_⟩
  · intro i s hs
    rcases ScopeTree.get?_push_cases h.tree hs with ⟨-, rfl⟩ | ⟨s', hs', -, hsame, hparent⟩
    · exact hname
    · rw [← hsame, ← hparent]
      exact (h.names hs').append _
  · show (w.scopes.push name kind).size = _
    rw [ScopeTree.size_push, h.size_eq, scopesIn_append]
    rfl
  · show (w.scopes.push name kind).chain (w.scopes.push name kind).current = _
    rw [ScopeTree.chain_push_current h.tree, h.chain_eq, h.size_eq]
    rfl
  · intro e he
    show _ < (w.scopes.push name kind).size ∧ (w.scopes.push name kind).chain _ = _
    rcases List.mem_append.mp he with he | he
    · obtain ⟨hi, heq⟩ := h.nests e he
      rw [hchain _ hi]
      exact ⟨hlt hi, heq⟩
    · rw [List.mem_singleton.mp he, ← h.scope_eq, hchain _ h.tree.current_lt]
      exact ⟨hlt h.tree.current_lt, h.chain_eq⟩
  · intro i n
    show (w.scopes.push name kind).binding? i n = _
    rw [hfirst]
    by_cases hi : i < w.scopes.size
    · rw [ScopeTree.binding?_push_of_lt hi, h.binding?_eq]
      apply Option.map_congr
      intro d hd
      exact (hid hd).symm
    · -- nothing is bound in the new scope, and nothing was declared in it
      rw [ScopeTree.binding?_push_of_not_lt h.tree hi]
      cases hd : firstIn es i n with
      | none => rfl
      | some d => exact absurd (h.of_firstIn hd).2.2.1 hi
  · intro s
    show s ∈ w.symbols.entries ↔ _
    rw [h.mem_symbols]
    simp only [IsFirst, hfirst]
    constructor
    · rintro ⟨d, hd, rfl⟩
      exact ⟨d, hd, hsymbol hd⟩
    · rintro ⟨d, hd, rfl⟩
      exact ⟨d, hd, (hsymbol hd).symm⟩
  · show w.errors.toList = _
    rw [walkErrors_snoc, h.errors_eq]
    have hsame : walkErrors (Declared.symbol (w.scopes.push name kind)) es =
        walkErrors (Declared.symbol w.scopes) es := by
      apply walkErrors_congr
      intro e he d hd
      have hi := (h.nests e he).1
      rw [← Event.scope_of_declared? hd] at hi
      exact Declared.symbol_congr (hpath _ hi)
    show _ = walkErrors (Declared.symbol (w.scopes.push name kind)) es ++ _
    rw [hsame]
    simp [errorAt]
  · show w.deferred.toList = _
    rw [putOff_snoc, h.deferred_eq]
    simp [unboundAt]

/-- The scope of a block begins. -/
theorem enterBlock (h : w.Follows es nest) (construct : String) (span : Span)
    (hfit : Fit (es ++ [⟨nest, .begins .block construct span.start⟩])) :
    (w.enterBlock construct span).Follows (es ++ [⟨nest, .begins .block construct span.start⟩])
      (nest.inside (scopesIn es + 1)) := by
  have hbase : IsWord construct := hfit.last
  have hplace : span.start ∉ places es := hfit.not_mem_places rfl
  apply h.begins hfit
  · apply NameFrom.placed construct span.start hbase
    rw [places_append]
    exact List.mem_append_right _ (List.mem_cons_self ..)
  · intro i s hs hparent
    have hfrom := h.names hs
    rw [hparent] at hfrom
    exact hfrom.ne_placedName hbase hplace

theorem leave (h : w.Follows es (nest.inside i)) : w.leave.Follows es nest := by
  -- only the current scope changes, to the one around it
  obtain ⟨hpop, hchain, hlt⟩ := ScopeTree.pop_eq h.tree h.chain_eq
  have hskeleton : ∀ j, w.scopes.pop.skeleton? j = w.scopes.skeleton? j := by
    intro j
    rw [hpop]
    rfl
  have hid := Declared.id_of_skeleton hskeleton
  have hsymbol := Declared.symbol_of_skeleton hskeleton
  have hchains := fun j => ScopeTree.chain_congr (i := j) fun k _ => hskeleton k
  have hsize : w.scopes.pop.size = w.scopes.size := by
    rw [hpop]
    rfl
  have hcurrent : w.scopes.pop.current = nest.scope := by rw [hpop]
  refine ⟨h.fit, h.tree.of_skeleton hskeleton ?_,
    h.distinct.of_skeleton hskeleton, ?_, hsize.trans h.size_eq, ?_, ?_, ?_, ?_,
    ?_, h.deferred_eq⟩
  · show w.scopes.pop.current < w.scopes.pop.size
    rw [hcurrent, hsize]
    exact hlt
  · intro j s hs
    obtain ⟨s', hs', -, hname, hparent⟩ := ScopeTree.exists_of_skeleton? (hskeleton j) hs
    rw [← hname, ← hparent]
    exact h.names hs'
  · show w.scopes.pop.chain w.scopes.pop.current = _
    rw [hcurrent, hchains, hchain]
    rfl
  · intro e he
    show _ < w.scopes.pop.size ∧ w.scopes.pop.chain _ = _
    rw [hsize, hchains]
    exact h.nests e he
  · intro j n
    show w.scopes.pop.binding? j n = (firstIn es j n).map (Declared.id w.scopes.pop)
    rw [hid, ← h.binding?_eq, hpop]
    rfl
  · intro s
    show s ∈ w.symbols.entries ↔ ∃ d, IsFirst es d ∧ d.symbol w.scopes.pop = s
    rw [hsymbol]
    exact h.mem_symbols s
  · show w.errors.toList = walkErrors (Declared.symbol w.scopes.pop) es
    rw [hsymbol]
    exact h.errors_eq

end Follows

end Walk

end TarnLang
