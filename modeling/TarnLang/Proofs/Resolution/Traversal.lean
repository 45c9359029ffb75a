/-
  TarnLang/Proofs/Resolution/Traversal.lean
  =========================================
  **The walk over nodes follows their events.**  Walking over a node adds the events of the
  node to those met before and ends in the scope it began in.  The induction is on the node:
  a node with a body opens a scope, walks over the body inside and leaves the scope again,
  and the number of that scope is the one that the events give it, because both count the
  scopes that began before.

  The induction is made once, for any relation between walks, events and scopes that the
  single steps of a walk keep; `Walk.Follows` is one of them.
-/
import TarnLang.Proofs.Resolution.Agreement

namespace TarnLang

variable {w : Walk} {es es' : List Event} {nest : Nest} {next : ScopeId}

/-! ### Numbers of scopes -/

theorem next_append (hnext : next = scopesIn es + 1) (es' : List Event) :
    next + scopesIn es' = scopesIn (es ++ es') + 1 := by
  rw [hnext, scopesIn_append]
  exact Nat.add_right_comm _ _ _

/-- The scopes that begin inside one have the numbers behind its own. -/
theorem add_scopesIn_begins (next : ScopeId) (nest : Nest) (kind : ScopeKind) (construct : String)
    (place : Position) (es : List Event) :
    next + scopesIn (⟨nest, .begins kind construct place⟩ :: es) = next + 1 + scopesIn es := by
  have hcons : scopesIn (⟨nest, .begins kind construct place⟩ :: es) = 1 + scopesIn es :=
    scopesIn_append [⟨nest, .begins kind construct place⟩] es
  rw [hcons]
  exact (Nat.add_assoc _ _ _).symm

namespace Walk

/-! ### Functions and procedures -/

theorem skeleton?_declare (w : Walk) (name : Token) (kind : SymbolKind)
    (declaration : Declaration) (i : ScopeId) :
    (w.declare name kind declaration).2.scopes.skeleton? i = w.scopes.skeleton? i := by
  unfold declare
  dsimp only
  split
  · exact ScopeTree.skeleton?_define ..
  · rfl

/-- A function or procedure is declared and its scope is entered; its parameters come next. -/
def beginCallable (w : Walk) (name : Token) (kind : SymbolKind) (declaration : Declaration) :
    Walk :=
  let (declared, w) := w.declare name kind declaration
  w.enter (if declared then name.text else scopeName name.text name.span) .callable

theorem Follows.beginCallable (h : w.Follows es nest) (name : Token) (kind : SymbolKind)
    (declaration : Declaration)
    (hfit : Fit (es ++ [⟨nest, .declares kind name declaration⟩] ++
      [⟨nest, .begins .callable name.text name.span.start⟩])) :
    (w.beginCallable name kind declaration).Follows
      (es ++ [⟨nest, .declares kind name declaration⟩] ++
        [⟨nest, .begins .callable name.text name.span.start⟩])
      (nest.inside (scopesIn es + 1)) := by
  have hword : IsWord name.text := hfit.left.last
  have hplace := hfit.not_mem_places rfl
  -- the name is declared around the scope, then the scope begins
  have hdeclared := h.declares kind name declaration hfit.left
  have hfst := h.declare_fst hfit.left
  have hnumber : scopesIn es + 1 =
      scopesIn (es ++ [⟨nest, .declares kind name declaration⟩]) + 1 := by
    rw [scopesIn_append]
    rfl
  rw [hnumber]
  show (Walk.enter (w.declare name kind declaration).2
    (if (w.declare name kind declaration).1 then name.text else scopeName name.text name.span)
    .callable).Follows _ _
  rw [hfst]
  cases hfirst : firstIn es nest.scope name.text with
  | none =>
    apply hdeclared.begins hfit
    · rw [hdeclared.scope_eq]
      apply NameFrom.declared hword
      rw [firstIn_append, firstIn_snoc_of_some rfl, hfirst]
      simp
    · -- the scopes here were here before the name was declared
      intro i s hs hparent
      obtain ⟨s', hs', -, hsame, hsame'⟩ :=
        ScopeTree.exists_of_skeleton? (w.skeleton?_declare name kind declaration i) hs
      have hfrom := h.names hs'
      rw [hsame, hsame', hparent, hdeclared.scope_eq] at hfrom
      exact hfrom.ne_word hword hfirst
  | some d =>
    apply hdeclared.begins hfit
    · apply NameFrom.placed name.text name.span.start hword
      rw [places_append]
      exact List.mem_append_right _ (List.mem_cons_self ..)
    · intro i s hs hparent
      have hfrom := hdeclared.names hs
      rw [hparent] at hfrom
      exact hfrom.ne_placedName hword hplace

/-! ### Stretches of the walk -/

/-- A relation that every step of the walk keeps, and that knows the current scope. -/
structure Kept (I : Walk → List Event → Nest → Prop) : Prop where
  scope_eq : ∀ {w es nest}, I w es nest → w.scopes.current = nest.scope
  uses : ∀ {w es nest}, I w es nest → ∀ usage name, Fit (es ++ [⟨nest, .uses usage name⟩]) →
    I (w.use usage name) (es ++ [⟨nest, .uses usage name⟩]) nest
  declares : ∀ {w es nest}, I w es nest → ∀ kind name declaration,
    Fit (es ++ [⟨nest, .declares kind name declaration⟩]) →
    I (w.declare name kind declaration).2 (es ++ [⟨nest, .declares kind name declaration⟩]) nest
  enterBlock : ∀ {w es nest}, I w es nest → ∀ construct span,
    Fit (es ++ [⟨nest, .begins .block construct span.start⟩]) →
    I (w.enterBlock construct span) (es ++ [⟨nest, .begins .block construct span.start⟩])
      (nest.inside (scopesIn es + 1))
  beginCallable : ∀ {w es nest}, I w es nest → ∀ name kind declaration,
    Fit (es ++ [⟨nest, .declares kind name declaration⟩] ++
      [⟨nest, .begins .callable name.text name.span.start⟩]) →
    I (w.beginCallable name kind declaration)
      (es ++ [⟨nest, .declares kind name declaration⟩] ++
        [⟨nest, .begins .callable name.text name.span.start⟩]) (nest.inside (scopesIn es + 1))
  leave : ∀ {w es nest i}, I w es (nest.inside i) → I w.leave es nest

theorem kept_follows : Kept Follows where
  scope_eq h := h.scope_eq
  uses h usage name hfit := h.uses usage name hfit
  declares h kind name declaration hfit := h.declares kind name declaration hfit
  enterBlock h construct span hfit := h.enterBlock construct span hfit
  beginCallable h name kind declaration hfit := h.beginCallable name kind declaration hfit
  leave h := h.leave

namespace Kept

variable {I : Walk → List Event → Nest → Prop} (hI : Kept I)
include hI

theorem declareParameters (names : List Token) (h : I w es nest)
    (hfit : Fit (es ++ names.map fun name => ⟨nest, .declares .var name (.parameter name)⟩)) :
    I (w.declareParameters names)
      (es ++ names.map fun name => ⟨nest, .declares .var name (.parameter name)⟩) nest := by
  induction names generalizing w es with
  | nil =>
    rw [List.map_nil, List.append_nil]
    exact h
  | cons name names ih =>
    rw [List.map_cons, List.append_cons] at hfit ⊢
    exact ih (hI.declares h .var name (.parameter name) hfit.left) hfit

/-- A function or procedure is declared, and its scope begins with its parameters. -/
theorem enterCallable (h : I w es nest) (hnext : next = scopesIn es + 1) (signature : Signature)
    (kind : SymbolKind) (declaration : Declaration)
    (hfit : Fit (es ++ callableEvents nest next kind signature declaration [])) :
    I (w.enterCallable signature kind declaration)
      (es ++ callableEvents nest next kind signature declaration []) (nest.inside next) := by
  obtain ⟨name, parameters, span⟩ := signature
  have hevents : es ++ callableEvents nest next kind ⟨name, parameters, span⟩ declaration [] =
      es ++ [⟨nest, .declares kind name declaration⟩] ++
        [⟨nest, .begins .callable name.text name.span.start⟩] ++
        parameters.names.map fun name =>
          ⟨nest.inside next, .declares .var name (.parameter name)⟩ := by
    simp [callableEvents]
  rw [hevents] at hfit ⊢
  have hbegun := hI.beginCallable h name kind declaration hfit.left
  rw [← hnext] at hbegun
  exact hI.declareParameters parameters.names hbegun hfit

end Kept

/-- What a stretch of the walk adds to the events, in a scope that it comes back to. -/
structure Adds (I : Walk → List Event → Nest → Prop) (visit : Walk → Walk) (nest : Nest)
    (next : ScopeId) (added : List Event) : Prop where
  keeps : ∀ {w : Walk} {es : List Event}, I w es nest → next = scopesIn es + 1 →
    Fit (es ++ added) → I (visit w) (es ++ added) nest

namespace Adds

variable {I : Walk → List Event → Nest → Prop} {visit visit' : Walk → Walk}
  {added added' : List Event}

theorem nothing (nest : Nest) (next : ScopeId) : Adds I (fun w => w) nest next [] := by
  refine ⟨?_⟩
  intro w es h _ _
  rw [List.append_nil]
  exact h

theorem append (hfirst : Adds I visit nest next added)
    (hsecond : Adds I visit' nest (next + scopesIn added) added') :
    Adds I (fun w => visit' (visit w)) nest next (added ++ added') := by
  refine ⟨?_⟩
  intro w es h hnext hfit
  rw [← List.append_assoc] at hfit ⊢
  exact hsecond.keeps (hfirst.keeps h hnext hfit.left) (next_append hnext added) hfit

section

variable (hI : Kept I)
include hI

theorem declares (kind : SymbolKind) (name : Token) (declaration : Declaration) (nest : Nest)
    (next : ScopeId) : Adds I (fun w => (w.declare name kind declaration).2) nest next
      [⟨nest, .declares kind name declaration⟩] := by
  refine ⟨?_⟩
  intro w es h _ hfit
  exact hI.declares h kind name declaration hfit

theorem uses (usage : Usage) (name : Token) (nest : Nest) (next : ScopeId) :
    Adds I (fun w => w.use usage name) nest next [⟨nest, .uses usage name⟩] := by
  refine ⟨?_⟩
  intro w es h _ hfit
  exact hI.uses h usage name hfit

/-- A block: its scope begins, it is walked over, and its scope is left. -/
theorem block (construct : String) (span : Span)
    (h : Adds I visit (nest.inside next) (next + 1) added) :
    Adds I (fun w => (visit (w.enterBlock construct span)).leave) nest next
      (⟨nest, .begins .block construct span.start⟩ :: added) := by
  refine ⟨?_⟩
  intro w es hw hnext hfit
  rw [List.append_cons] at hfit ⊢
  have hentered := hI.enterBlock hw construct span hfit.left
  rw [← hnext] at hentered
  have hinside := next_append hnext [⟨nest, .begins .block construct span.start⟩]
  exact hI.leave (h.keeps hentered hinside hfit)

/-- A function or procedure, whose kind may depend on the scope it is declared in. -/
theorem callable {kind : Walk → SymbolKind} {kind' : SymbolKind}
    (hkind : ∀ {w : Walk} {es}, I w es nest → kind w = kind') (signature : Signature)
    (declaration : Declaration) (h : Adds I visit (nest.inside next) (next + 1) added) :
    Adds I (fun w => (visit (w.enterCallable signature (kind w) declaration)).leave) nest next
      (callableEvents nest next kind' signature declaration added) := by
  have hcount : scopesIn (callableEvents nest next kind' signature declaration []) = 1 := by
    simp [callableEvents, scopesIn, Function.comp_def]
  refine ⟨?_⟩
  intro w es hw hnext hfit
  rw [callableEvents_append, ← List.append_assoc] at hfit ⊢
  rw [hkind hw]
  have hentered := hI.enterCallable hw hnext signature kind' declaration hfit.left
  have hinside := next_append hnext (callableEvents nest next kind' signature declaration [])
  rw [hcount] at hinside
  exact hI.leave (h.keeps hentered hinside hfit)

end

/-! ### Values -/

mutual

theorem value (hI : Kept I) (n : Node) (nest : Nest) (next : ScopeId) :
    Adds I (visitValue n) nest next (valueEvents nest n) := by
  cases n with
  | leaf token =>
    by_cases hident : token.kind = .ident
    · have hvisit : visitValue (.leaf token) = fun w => w.use .value token := by
        funext w
        simp [visitValue, hident, use]
      rw [hvisit, valueEvents, if_pos hident]
      exact uses hI .value token nest next
    · have hvisit : visitValue (.leaf token) = fun w => w := by
        funext w
        simp [visitValue, hident]
      rw [hvisit, valueEvents, if_neg hident]
      exact nothing nest next
  | call c =>
    obtain ⟨name, ⟨arguments, argumentsSpan⟩, span⟩ := c
    exact (uses hI (.call true span) name nest next).append (values hI arguments nest _)
  | binary left operator right span =>
    exact (value hI left nest next).append (value hI right nest _)
  | unary operator operand span => exact value hI operand nest next
  | _ => exact nothing nest next

theorem values (hI : Kept I) (ns : List Node) (nest : Nest) (next : ScopeId) :
    Adds I (visitValues ns) nest next (valuesEvents nest ns) := by
  cases ns with
  | nil => exact nothing nest next
  | cons n ns => exact (value hI n nest next).append (values hI ns nest _)

end

/-- No scope begins in the value that is walked over first. -/
theorem afterValue (hI : Kept I) (n : Node) (h : Adds I visit nest next added) :
    Adds I (fun w => visit (visitValue n w)) nest next (valueEvents nest n ++ added) := by
  apply (value hI n nest next).append
  rw [(onlyUses_value nest n).scopesIn_eq]
  exact h

end Adds

theorem functionKind_eq (h : w.scopes.current = nest.scope) (name : Token) :
    w.functionKind name = nest.functionKind name := by
  rw [functionKind, h, Nest.functionKind]

/-! ### Statements -/

namespace Adds

variable {I : Walk → List Event → Nest → Prop}

mutual

theorem statement (hI : Kept I) (n : Node) (nest : Nest) (next : ScopeId) :
    Adds I (visitStatement n) nest next (statementEvents nest next n) := by
  cases n with
  | functionDef signature body span =>
    obtain ⟨body, bodySpan⟩ := body
    have hbody := statements hI body (nest.inside next) (next + 1)
    exact hbody.callable hI (fun h => functionKind_eq (hI.scope_eq h) signature.name) signature _
  | procedureDef signature body span =>
    obtain ⟨body, bodySpan⟩ := body
    have hbody := statements hI body (nest.inside next) (next + 1)
    exact hbody.callable hI (fun _ => rfl) signature _
  | varDecl name span => exact declares hI .var name _ nest next
  | varInit name value span => exact (declares hI .var name _ nest next).afterValue hI value
  | assignment name value span =>
    exact (uses hI (.assigned span) name nest next).append (Adds.value hI value nest _)
  | call c =>
    obtain ⟨name, ⟨arguments, argumentsSpan⟩, span⟩ := c
    exact (uses hI (.call false span) name nest next).append (values hI arguments nest _)
  | block b =>
    obtain ⟨body, span⟩ := b
    exact (statements hI body (nest.inside next) (next + 1)).block hI "block" span
  | returnStmt value span => exact Adds.value hI value nest next
  | ifStmt condition body alternative span =>
    obtain ⟨body, bodySpan⟩ := body
    have hbody := (statements hI body (nest.inside next) (next + 1)).block hI "if" span
    exact (hbody.afterValue hI condition).append (statement hI alternative nest _)
  | elseIf condition body alternative span =>
    obtain ⟨body, bodySpan⟩ := body
    have hbody := (statements hI body (nest.inside next) (next + 1)).block hI "elseif" span
    exact (hbody.afterValue hI condition).append (statement hI alternative nest _)
  | elseClause body span =>
    obtain ⟨body, bodySpan⟩ := body
    exact (statements hI body (nest.inside next) (next + 1)).block hI "else" span
  | forLoop init test update body span =>
    -- the three clauses stand inside the scope of the loop, as its body does
    obtain ⟨body, bodySpan⟩ := body
    have hhead := (statement hI init (nest.inside next) (next + 1)).append
      (Adds.value hI test (nest.inside next) _)
    have hclauses := hhead.append (statement hI update (nest.inside next) _)
    have hloop := (hclauses.append (statements hI body (nest.inside next) _)).block hI "for" span
    rw [statementEvents]
    simp only [List.cons_append, add_scopesIn_begins]
    exact hloop
  | whileLoop condition body span =>
    obtain ⟨body, bodySpan⟩ := body
    have hbody := (statements hI body (nest.inside next) (next + 1)).block hI "while" span
    exact hbody.afterValue hI condition
  | switchStmt subject cases span => exact (switchCases hI cases nest next).afterValue hI subject
  | binary left operator right span =>
    exact Adds.value hI (.binary left operator right span) nest next
  | unary operator operand span => exact Adds.value hI (.unary operator operand span) nest next
  | leaf token => exact Adds.value hI (.leaf token) nest next
  | missing failure => exact nothing nest next

theorem statements (hI : Kept I) (ns : List Node) (nest : Nest) (next : ScopeId) :
    Adds I (visitStatements ns) nest next (statementsEvents nest next ns) := by
  cases ns with
  | nil => exact nothing nest next
  | cons n ns => exact (statement hI n nest next).append (statements hI ns nest _)

theorem switchCases (hI : Kept I) (cs : List (Case Node)) (nest : Nest) (next : ScopeId) :
    Adds I (visitCases cs) nest next (casesEvents nest next cs) := by
  cases cs with
  | nil => exact nothing nest next
  | cons c cs =>
    obtain ⟨value, ⟨body, bodySpan⟩, span⟩ := c
    have hbody := (statements hI body (nest.inside next) (next + 1)).block hI "case" span
    exact (hbody.afterValue hI value).append (switchCases hI cs nest _)

end

end Adds

/-! ### Whole programs -/

theorem follows_start : start.Follows [] .outermost := by
  refine ⟨⟨?_, List.nodup_nil⟩, ScopeTree.wellFormed_fresh, ?_, ?_, rfl, ?_, ?_, ?_, ?_, rfl, rfl⟩
  · intro e he
    cases he
  · intro i j s s' hs hs' _ _
    rw [(ScopeTree.eq_of_get?_fresh hs).1, (ScopeTree.eq_of_get?_fresh hs').1]
  · intro i s hs
    obtain ⟨rfl, rfl⟩ := ScopeTree.eq_of_get?_fresh hs
    exact .outermost
  · have hroot : ScopeTree.fresh.get? ScopeTree.root =
        some ⟨ScopeTree.root, ScopeTree.rootName, .root, none, #[], []⟩ := rfl
    exact ScopeTree.chain_eq ScopeTree.wellFormed_fresh hroot
  · intro e he
    cases he
  · exact ScopeTree.binding?_fresh
  · intro s
    constructor
    · intro hs
      cases hs
      contradiction
    · rintro ⟨d, hd, -⟩
      cases hd

/-- What is kept holds behind the walk over a program, if it holds before. -/
theorem Kept.program {I : Walk → List Event → Nest → Prop} (hI : Kept I)
    (hstart : I start [] .outermost) {p : Program} (hfit : Fit p.events) :
    I (visitStatements p.declarations start) p.events .outermost :=
  (Adds.statements hI p.declarations .outermost (ScopeTree.root + 1)).keeps hstart rfl hfit

theorem follows_program {p : Program} (hfit : Fit p.events) :
    (visitStatements p.declarations start).Follows p.events .outermost :=
  kept_follows.program follows_start hfit

namespace Follows

/-- The uses that were put off are those without a meaning. -/
theorem deferredErrors_eq (h : w.Follows es nest) :
    w.deferred.toList.map w.deferredError = unboundErrors (Declared.symbol w.scopes) es := by
  rw [h.deferred_eq, putOff, List.map_filterMap, unboundErrors]
  apply List.filterMap_congr
  rintro ⟨before, e⟩ hmem
  obtain ⟨front, rest, rfl, -⟩ := mem_withEarlier hmem
  have hchain := (h.nests e (List.mem_append_right front (List.mem_cons_self ..))).2
  rw [Option.map_map]
  apply Option.map_congr
  intro name _
  show SemanticError.useBeforeDefinition name _ = _
  rw [h.symbol_lookupFrom, hchain]
  rfl

theorem hasMain_eq (h : w.Follows es nest) :
    w.hasMain = (firstIn es ScopeTree.root "main").any (·.kind = .mainFunction) := by
  have hroot : ScopeTree.root < w.scopes.size := by
    rw [h.size_eq]
    exact Nat.zero_lt_succ _
  rw [hasMain, h.get?_qualify hroot (by decide)]
  cases firstIn es ScopeTree.root "main" with
  | none => rfl
  | some d => rfl

theorem finish_errors (h : w.Follows es nest) :
    w.finish.errors.toList = scopingErrors (Declared.symbol w.scopes) es := by
  rw [finish, Array.toList_append, Array.toList_append, Array.toList_map, h.errors_eq,
    h.deferredErrors_eq, h.hasMain_eq, scopingErrors, mainErrors]
  by_cases hmain : (firstIn es ScopeTree.root "main").any (·.kind = .mainFunction) = true
  · rw [if_pos hmain, if_pos hmain]
  · rw [if_neg hmain, if_neg hmain]

end Follows

end Walk

end TarnLang
