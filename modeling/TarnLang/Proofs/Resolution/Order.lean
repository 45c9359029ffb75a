/-
  TarnLang/Proofs/Resolution/Order.lean
  =====================================
  **Events in the order of the text.**  Names of events are leaves of the tree, and so they are
  tokens that were read.  Events come in the order of their names in the text, but for one
  exception: the value of a declared variable comes before its name.

  So where a use has no meaning yet and its name is declared behind it, the declaration stands
  further on in the text, or the use stands in the value of the declared variable.
-/
import TarnLang.Proofs.Grammar.Leaves
import TarnLang.Proofs.Resolution.Errors

namespace TarnLang

variable {es es' : List Event} {e : Event} {ls ls' : List Token} {d : Declared} {nest : Nest}

/-! ### Names of events -/

/-- The name that is declared or used at an event. -/
def Event.name? (e : Event) : Option Token :=
  match e.happening with
  | .declares _ name _ => some name
  | .uses _ name => some name
  | .begins .. => none

def names (es : List Event) : List Token := es.filterMap Event.name?

@[simp] theorem names_nil : names [] = [] := rfl

@[simp] theorem names_append : names (es ++ es') = names es ++ names es' := List.filterMap_append

@[simp] theorem names_declares {kind : SymbolKind} {name : Token} {declaration : Declaration} :
    names (⟨nest, .declares kind name declaration⟩ :: es) = name :: names es := rfl

@[simp] theorem names_uses {usage : Usage} {name : Token} :
    names (⟨nest, .uses usage name⟩ :: es) = name :: names es := rfl

@[simp] theorem names_begins {kind : ScopeKind} {construct : String} {place : Position} :
    names (⟨nest, .begins kind construct place⟩ :: es) = names es := rfl

theorem Event.name?_of_declared? (h : e.declared? = some d) : e.name? = some d.name := by
  obtain ⟨nest, happening⟩ := e
  cases happening with
  | declares kind name declaration =>
    cases h
    rfl
  | uses usage name => cases h
  | begins kind construct place => cases h

theorem name_mem_names (he : e ∈ es) (h : e.declared? = some d) : d.name ∈ names es :=
  List.mem_filterMap.mpr ⟨e, he, Event.name?_of_declared? h⟩

/-- The names that are declared, in order. -/
def declaredNames (es : List Event) : List Token := (es.filterMap Event.declared?).map Declared.name

@[simp] theorem declaredNames_append :
    declaredNames (es ++ es') = declaredNames es ++ declaredNames es' := by
  rw [declaredNames, List.filterMap_append, List.map_append]
  rfl

theorem declaredNames_eq_nil (h : ∀ e ∈ es, e.declared? = none) : declaredNames es = [] := by
  rw [declaredNames, List.filterMap_eq_nil_iff.mpr h, List.map_nil]

mutual

theorem names_value (nest : Nest) (n : Node) : names (valueEvents nest n) ⊆ n.leaves := by
  cases n with
  | leaf token =>
    by_cases hident : token.kind = .ident
    · simp [valueEvents, hident, Node.leaves]
    · simp [valueEvents, hident]
  | call c =>
    have harguments := names_values nest c.arguments.arguments
    simp only [valueEvents, names_uses, Node.leaves]
    exact List.cons_subset_cons _ harguments
  | binary left operator right span =>
    have hleft := names_value nest left
    have hright := names_value nest right
    simp only [valueEvents, names_append, Node.leaves]
    grind
  | unary operator operand span =>
    have hoperand := names_value nest operand
    simp only [valueEvents, Node.leaves]
    exact List.subset_cons_of_subset _ hoperand
  | _ => exact List.nil_subset _

theorem names_values (nest : Nest) (ns : List Node) :
    names (valuesEvents nest ns) ⊆ Node.leavesOfList ns := by
  cases ns with
  | nil => exact List.nil_subset _
  | cons n ns =>
    have hfirst := names_value nest n
    have hrest := names_values nest ns
    simp only [valuesEvents, names_append, Node.leavesOfList]
    grind

end

/-- Nothing is declared in a value. -/
theorem declaredNames_value (nest : Nest) (n : Node) : declaredNames (valueEvents nest n) = [] := by
  apply declaredNames_eq_nil
  intro e he
  obtain ⟨nest', usage, name, rfl⟩ := onlyUses_value nest n e he
  rfl

/-! ### Uses in front of declarations -/

/-- A use stands in front of a declaration as their tokens do, or it stands in the value of the
    variable that is declared. -/
def UseBefore (P : Token → Token → Prop) (e e' : Event) : Prop :=
  ∀ usage u d, e.happening = .uses usage u → e'.declared? = some d →
    P u d.name ∨ ∃ value span, d.declaration = .node (.varInit d.name value span) ∧ u ∈ value.leaves

/-- Events whose names are among the leaves of a part of the tree, in the order of the leaves.
    Declared names follow it without an exception: nothing is declared in a value. -/
structure InTextOrder (leaves : List Token) (es : List Event) : Prop where
  names_subset : names es ⊆ leaves
  declared_sublist : (declaredNames es).Sublist leaves
  pairwise : ∀ P : Token → Token → Prop, leaves.Pairwise P → es.Pairwise (UseBefore P)

namespace InTextOrder

theorem append (h : InTextOrder ls es) (h' : InTextOrder ls' es') :
    InTextOrder (ls ++ ls') (es ++ es') := by
  constructor
  · rw [names_append]
    exact List.append_subset.mpr
      ⟨List.subset_append_of_subset_left _ h.names_subset,
        List.subset_append_of_subset_right _ h'.names_subset⟩
  · rw [declaredNames_append]
    exact h.declared_sublist.append h'.declared_sublist
  · intro P hP
    obtain ⟨hfirst, hrest, hcross⟩ := List.pairwise_append.mp hP
    refine List.pairwise_append.mpr ⟨h.pairwise P hfirst, h'.pairwise P hrest, ?_⟩
    intro e he e' he' usage u d huses hdeclared
    have hu : u ∈ names es := List.mem_filterMap.mpr ⟨e, he, by rw [Event.name?, huses]⟩
    exact .inl (hcross u (h.names_subset hu) d.name (h'.names_subset (name_mem_names he' hdeclared)))

theorem nil : InTextOrder [] [] :=
  ⟨List.Subset.refl _, List.Sublist.refl _, fun _ _ => List.Pairwise.nil⟩

theorem single {name : Token} (h : e.name? = some name) : InTextOrder [name] [e] := by
  refine ⟨?_, ?_, fun _ _ => List.pairwise_singleton _ _⟩
  · rw [names, List.filterMap_cons_some h]
    exact List.Subset.refl _
  · cases hd : e.declared? with
    | none => simp [declaredNames, hd]
    | some d =>
      obtain rfl := Option.some.inj (h.symm.trans (Event.name?_of_declared? hd))
      simp [declaredNames, hd]

theorem begins (nest : Nest) (kind : ScopeKind) (construct : String) (place : Position) :
    InTextOrder [] [⟨nest, .begins kind construct place⟩] :=
  ⟨List.Subset.refl _, List.Sublist.refl _, fun _ _ => List.pairwise_singleton _ _⟩

theorem value (nest : Nest) (n : Node) : InTextOrder n.leaves (valueEvents nest n) := by
  refine ⟨names_value nest n, ?_, fun P _ => List.pairwise_of_forall_mem_list ?_⟩
  · rw [declaredNames_value]
    exact List.nil_sublist _
  · intro e _ e' he' usage u d _ hdeclared
    obtain ⟨nest', usage', name, rfl⟩ := onlyUses_value nest n e' he'
    cases hdeclared

theorem values (nest : Nest) (ns : List Node) :
    InTextOrder (Node.leavesOfList ns) (valuesEvents nest ns) := by
  induction ns with
  | nil => exact .nil
  | cons n ns ih => exact (value nest n).append ih

/-- The one exception: a variable is declared behind its value. -/
theorem varInit (nest : Nest) (name : Token) (n : Node) (span : Span) :
    InTextOrder (name :: n.leaves) (valueEvents nest n ++
      [⟨nest, .declares .var name (.node (.varInit name n span))⟩]) := by
  have hvalue := value nest n
  constructor
  · rw [names_append, names_declares, names_nil]
    refine List.append_subset.mpr ⟨List.subset_cons_of_subset _ hvalue.names_subset, ?_⟩
    exact List.cons_subset_cons name (List.nil_subset _)
  · rw [declaredNames_append, declaredNames_value]
    exact (List.nil_sublist _).cons_cons name
  · intro P hP
    have hrest := hvalue.pairwise P (List.pairwise_cons.mp hP).2
    refine List.pairwise_append.mpr ⟨hrest, List.pairwise_singleton _ _, ?_⟩
    intro e he e' he' usage u d huses hdeclared
    obtain rfl := List.mem_singleton.mp he'
    cases hdeclared
    have hu : u ∈ names (valueEvents nest n) :=
      List.mem_filterMap.mpr ⟨e, he, by rw [Event.name?, huses]⟩
    exact .inr ⟨n, span, rfl, hvalue.names_subset hu⟩

theorem parameters (nest : Nest) (ts : List Token) : InTextOrder ts
    (ts.map fun name => ⟨nest, .declares .var name (.parameter name)⟩) := by
  induction ts with
  | nil => exact .nil
  | cons t ts ih => exact (single rfl).append ih

theorem callable {body : List Event} (h : InTextOrder ls body) (nest : Nest) (scope : ScopeId)
    (kind : SymbolKind) (signature : Signature) (declaration : Declaration) :
    InTextOrder (signature.leaves ++ ls)
      (callableEvents nest scope kind signature declaration body) := by
  have hname : InTextOrder [signature.name] [⟨nest, .declares kind signature.name declaration⟩] :=
    single rfl
  have hbegins := begins nest .callable signature.name.text signature.name.span.start
  exact (hname.append (hbegins.append (parameters (nest.inside scope) _))).append h

/-- A scope begins in front of what stands in it. -/
theorem body (h : InTextOrder ls es) (nest : Nest) (construct : String) (place : Position) :
    InTextOrder ls (⟨nest, .begins .block construct place⟩ :: es) :=
  (begins nest .block construct place).append h

mutual

/-- **Events come in the order of the text**, whatever the shape of the node. -/
theorem statement (nest : Nest) (next : ScopeId) (n : Node) :
    InTextOrder n.leaves (statementEvents nest next n) := by
  cases n with
  | functionDef signature b span =>
    exact (statements (nest.inside next) (next + 1) b.statements).callable _ _ _ signature _
  | procedureDef signature b span =>
    exact (statements (nest.inside next) (next + 1) b.statements).callable _ _ _ signature _
  | varDecl name span => exact single rfl
  | varInit name n span => exact varInit nest name n span
  | assignment name n span =>
    have hname : InTextOrder [name] [⟨nest, .uses (.assigned span) name⟩] := single rfl
    exact hname.append (value nest n)
  | call c =>
    have hname : InTextOrder [c.name] [⟨nest, .uses (.call false c.span) c.name⟩] := single rfl
    exact hname.append (values nest c.arguments.arguments)
  | block b => exact (statements (nest.inside next) (next + 1) b.statements).body _ _ _
  | returnStmt n span => exact value nest n
  | ifStmt condition b alternative span =>
    have hbody := (statements (nest.inside next) (next + 1) b.statements).body nest "if" span.start
    exact ((value nest condition).append hbody).append (statement nest _ alternative)
  | elseIf condition b alternative span =>
    have hbody :=
      (statements (nest.inside next) (next + 1) b.statements).body nest "elseif" span.start
    exact ((value nest condition).append hbody).append (statement nest _ alternative)
  | elseClause b span => exact (statements (nest.inside next) (next + 1) b.statements).body _ _ _
  | forLoop init test update b span =>
    have hinit := (statement (nest.inside next) (next + 1) init).body nest "for" span.start
    exact ((hinit.append (value _ test)).append (statement _ _ update)).append
      (statements _ _ b.statements)
  | whileLoop condition b span =>
    have hbody :=
      (statements (nest.inside next) (next + 1) b.statements).body nest "while" span.start
    exact (value nest condition).append hbody
  | switchStmt subject cases span => exact (value nest subject).append (switchCases nest next cases)
  | binary left operator right span => exact value nest (.binary left operator right span)
  | unary operator operand span => exact value nest (.unary operator operand span)
  | leaf token => exact value nest (.leaf token)
  | missing failure => exact .nil

theorem statements (nest : Nest) (next : ScopeId) (ns : List Node) :
    InTextOrder (Node.leavesOfList ns) (statementsEvents nest next ns) := by
  cases ns with
  | nil => exact .nil
  | cons n ns => exact (statement nest next n).append (statements nest _ ns)

theorem switchCases (nest : Nest) (next : ScopeId) (cs : List (Case Node)) :
    InTextOrder (Node.leavesOfCases cs) (casesEvents nest next cs) := by
  cases cs with
  | nil => exact .nil
  | cons c cs =>
    have hbody := (statements (nest.inside next) (next + 1) c.body.statements).body nest "case"
      c.span.start
    exact ((value nest c.value).append hbody).append (switchCases nest _ cs)

end

end InTextOrder

theorem Program.inTextOrder_events (p : Program) : InTextOrder p.leaves p.events :=
  .statements .outermost (ScopeTree.root + 1) p.declarations

/-- **The names of events are leaves of the program.** -/
theorem Program.names_events (p : Program) : names p.events ⊆ p.leaves :=
  p.inTextOrder_events.names_subset

/-! ### Uses before definitions -/

theorem errorAt_ne_useBeforeDefinition {symbol : Declared → Symbol} {earlier : List Event}
    {usage : Token} {s : Option Symbol} :
    errorAt symbol earlier e ≠ some (.useBeforeDefinition usage s) := by
  intro h
  obtain ⟨nest, happening⟩ := e
  cases happening with
  | declares kind name declaration =>
    obtain ⟨d, -, heq⟩ := Option.map_eq_some_iff.mp h
    cases heq
  | uses kind name =>
    obtain ⟨d, -, huse⟩ := Option.bind_eq_some_iff.mp h
    rcases useError_cases huse with heq | ⟨span, heq⟩ | ⟨span, heq⟩
    · cases heq
    · cases heq
    · cases heq
  | begins kind construct place => cases h

theorem use_of_unboundAt {earlier : List Event} {usage : Token}
    (h : unboundAt earlier e = some usage) :
    (∃ kind, e = ⟨e.nest, .uses kind usage⟩) ∧ meaning earlier e.nest usage.text = none := by
  obtain ⟨nest, happening⟩ := e
  cases happening with
  | declares kind name declaration => cases h
  | uses kind name =>
    simp only [unboundAt] at h
    split at h
    case isTrue hnone =>
      cases h
      exact ⟨⟨kind, rfl⟩, hnone⟩
    case isFalse => cases h
  | begins kind construct place => cases h

/-- What is reported as used before its definition has no meaning where it is used, and the
    definition is what it means among all events. -/
theorem exists_use_of_useBeforeDefinition {symbol : Declared → Symbol} {usage : Token}
    {s : Option Symbol} (h : .useBeforeDefinition usage s ∈ scopingErrors symbol es) :
    ∃ earlier nest kind later, es = earlier ++ ⟨nest, .uses kind usage⟩ :: later ∧
      meaning earlier nest usage.text = none ∧ (meaning es nest usage.text).map symbol = s := by
  rcases List.mem_append.mp h with h | h
  · rcases List.mem_append.mp h with h | h
    · obtain ⟨⟨before, e⟩, -, herror⟩ := List.mem_filterMap.mp h
      exact absurd herror errorAt_ne_useBeforeDefinition
    · obtain ⟨⟨before, e⟩, hmem, herror⟩ := List.mem_filterMap.mp h
      obtain ⟨front, rest, hes, rfl⟩ := mem_withEarlier hmem
      obtain ⟨name, hunbound, heq⟩ := Option.map_eq_some_iff.mp herror
      obtain ⟨rfl, hmeans⟩ := SemanticError.useBeforeDefinition.inj heq
      obtain ⟨⟨kind, he⟩, hnone⟩ := use_of_unboundAt hunbound
      exact ⟨before, e.nest, kind, rest, he ▸ hes, hnone, hmeans⟩
  · unfold mainErrors at h
    split at h
    · cases h
    · cases List.mem_singleton.mp h

/-- A name that gets its meaning behind a use is declared there. -/
theorem declared_behind_use {earlier later : List Event} {kind : Usage} {usage : Token} {n : String}
    (hnone : meaning earlier nest n = none)
    (hd : meaning (earlier ++ ⟨nest, .uses kind usage⟩ :: later) nest n = some d) :
    d.scope ∈ nest.chain ∧ d.name.text = n ∧ ∃ e ∈ later, e.declared? = some d := by
  obtain ⟨i, hi, hfirst⟩ := meaning_eq_some hd
  have hbefore : firstIn earlier i n = none := List.findSome?_eq_none_iff.mp hnone i hi
  have hlater : firstIn later i n = some d := by
    rw [List.append_cons, firstIn_append, firstIn_snoc_of_none rfl, hbefore] at hfirst
    exact hfirst
  obtain ⟨rfl, hname, hdeclared⟩ := firstIn_eq_some hlater
  exact ⟨hi, hname, hdeclared⟩

variable {source : String} {p : Program}

/-- The leaves of a text stand one behind the other. -/
theorem pairwise_precedes_of_parse (hsize : source.utf8ByteSize ≤ 2 ^ 32 - 2)
    (hp : parse (tokenize source).tokens = .ok p) :
    p.leaves.Pairwise fun a b => a.span.precedes b.span := by
  have hlength : source.utf8ByteSize < 2 ^ 32 - 1 := by omega
  have hsublist := (List.filter_sublist (p := Token.isContent)).trans
    (List.takeWhile_sublist (l := (tokenize source).tokens.toList) (·.kind ≠ .eof))
  rw [leaves_of_parse hp]
  exact ((inOrder_tokenize hlength).apart.sublist hsublist).imp
    fun hapart => decide_eq_true hapart.2

/-- **What is said to be used before its definition is.**  The definition is declared behind the
    use, in the scope of the use or one around it.  In the text it stands further on, but for a
    variable that is used in its own value. -/
theorem used_before_definition (hsize : source.utf8ByteSize ≤ 2 ^ 32 - 2)
    (hp : parse (tokenize source).tokens = .ok p) {usage : Token} {definition : Symbol}
    (h : .useBeforeDefinition usage (some definition) ∈ (resolve p).errors) :
    ∃ earlier nest kind later, p.events = earlier ++ ⟨nest, .uses kind usage⟩ :: later ∧
      (∃ s ∈ (resolve p).scopes.outward nest.scope, s.id = definition.scope) ∧
      (∃ outer, outer.scope = definition.scope ∧
        ⟨outer, .declares definition.kind definition.name definition.declaration⟩ ∈ later) ∧
      definition.name.text = usage.text ∧
      (usage.span.precedes definition.name.span ∨ ∃ value span,
        definition.declaration = .node (.varInit definition.name value span) ∧
          usage ∈ value.leaves) := by
  have hfollows := Walk.follows_program (fit_of_parse hsize hp)
  have hmem := Array.mem_def.mp h
  rw [show (resolve p).errors.toList = _ from hfollows.finish_errors] at hmem
  obtain ⟨earlier, nest, kind, later, hevents, hnone, hmeans⟩ :=
    exists_use_of_useBeforeDefinition hmem
  obtain ⟨d, hd, rfl⟩ := Option.map_eq_some_iff.mp hmeans
  rw [hevents] at hd
  obtain ⟨hscope, hname, e, he, hdeclared⟩ := declared_behind_use hnone hd
  refine ⟨earlier, nest, kind, later, hevents, ?_, ?_, hname, ?_⟩
  · have huse : ⟨nest, .uses kind usage⟩ ∈ p.events := by
      rw [hevents]
      exact List.mem_append_right _ (List.mem_cons_self ..)
    rw [← (hfollows.nests _ huse).2] at hscope
    exact List.mem_map.mp hscope
  · obtain ⟨heq, houter⟩ := Event.eq_of_declared? hdeclared
    exact ⟨e.nest, houter.symm, heq ▸ he⟩
  · have horder := p.inTextOrder_events.pairwise (fun a b => a.span.precedes b.span)
      (pairwise_precedes_of_parse hsize hp)
    rw [hevents] at horder
    have hbefore := (List.pairwise_cons.mp (List.pairwise_append.mp horder).2.1).1 e he
    exact hbefore kind usage d rfl hdeclared

/-- Whether what is used before its definition stands in front of it. -/
def SemanticError.forward? : SemanticError → Option Bool
  | .useBeforeDefinition usage (some definition) =>
    some (usage.span.precedes definition.name.span)
  | _ => none

/-- A variable that is used in its own value does not stand in front of its name. -/
theorem used_before_definition_in_own_value :
    ∃ p usage definition value span, parse (tokenize "let x = x;").tokens = .ok p ∧
      .useBeforeDefinition usage (some definition) ∈ (resolve p).errors ∧
      definition.declaration = .node (.varInit definition.name value span) ∧
      usage ∈ value.leaves := by
  have hforward : (parse (tokenize "let x = x;").tokens).toOption.map (fun p =>
      (resolve p).errors.toList.filterMap SemanticError.forward?) = some [false] := by
    decide +kernel
  cases h : parse (tokenize "let x = x;").tokens with
  | ok p =>
    rw [h] at hforward
    have hlist : (resolve p).errors.toList.filterMap SemanticError.forward? = [false] :=
      Option.some.inj hforward
    obtain ⟨e, he, hnot⟩ := List.mem_filterMap.mp (hlist ▸ List.mem_singleton.mpr rfl)
    unfold SemanticError.forward? at hnot
    split at hnot
    case h_1 usage definition =>
      have hmem := Array.mem_def.mpr he
      obtain ⟨-, -, -, -, -, -, -, -, hplace⟩ := used_before_definition (by decide) h hmem
      rw [Option.some.inj hnot] at hplace
      obtain ⟨value, span, hdeclaration, husage⟩ := hplace.resolve_left Bool.false_ne_true
      exact ⟨p, usage, definition, value, span, rfl, hmem, hdeclaration, husage⟩
    case h_2 => cases hnot
  | error e =>
    rw [h] at hforward
    cases hforward

end TarnLang
