/-
  TarnLang/Proofs/Resolution/Scoping.lean
  =======================================
  **Lexical scoping, without a walk.**  A program is a row of events: names are declared and
  used, and scopes begin.  Each event knows the scopes around it, which are numbered in the
  order in which they begin.  The value of a declared variable comes before its name, the
  name of a function or procedure before its parameters and body, the name of a call before
  its arguments, and the target of an assignment before its value; a `for` is its first
  clause, its test, its update and its body.

  What a name means at an event is the first declaration of it in the nearest scope that
  has one among the events before.  The errors of a program are read off this: names that
  are declared twice in a scope and uses that do not fit what the name means, in the order
  of the events; then the uses without a meaning; then a missing main function.
-/
import Mathlib.Data.List.Basic
import TarnLang.Resolution.Basic
import TarnLang.Proofs.Resolution.Name

namespace TarnLang

/-! ### Events -/

/-- The scope that something stands in, and the scopes around that from the inside out. -/
structure Nest where
  scope : ScopeId
  around : List ScopeId
deriving DecidableEq, Repr

namespace Nest

def outermost : Nest := ⟨ScopeTree.root, []⟩

def chain (nest : Nest) : List ScopeId := nest.scope :: nest.around

def inside (nest : Nest) (scope : ScopeId) : Nest := ⟨scope, nest.chain⟩

/-- Kind of a function that is declared here. -/
def functionKind (nest : Nest) (name : Token) : SymbolKind :=
  if name.text = "main" ∧ nest.scope = ScopeTree.root then .mainFunction else .function

end Nest

/-- How a name is used: as a value, in a call that may have to give a value, or as the target
    of an assignment. -/
inductive Usage
  | value
  | call (asValue : Bool) (span : Span)
  | assigned (span : Span)
deriving Repr

inductive Happening
  | declares (kind : SymbolKind) (name : Token) (declaration : Declaration)
  | uses (usage : Usage) (name : Token)
  | begins (kind : ScopeKind) (construct : String) (place : Position)
deriving Repr

structure Event where
  nest : Nest
  happening : Happening
deriving Repr

/-- Number of scopes that begin. -/
def scopesIn (es : List Event) : Nat :=
  es.countP fun e => match e.happening with
    | .begins .. => true
    | _ => false

mutual

/-- Events of a node that stands where a value is wanted. -/
def valueEvents (nest : Nest) : Node → List Event
  | .leaf token => if token.kind = .ident then [⟨nest, .uses .value token⟩] else []
  | .call ⟨name, ⟨arguments, _⟩, span⟩ =>
    ⟨nest, .uses (.call true span) name⟩ :: valuesEvents nest arguments
  | .binary left _ right _ => valueEvents nest left ++ valueEvents nest right
  | .unary _ operand _ => valueEvents nest operand
  | _ => []

def valuesEvents (nest : Nest) : List Node → List Event
  | [] => []
  | n :: ns => valueEvents nest n ++ valuesEvents nest ns

end

/-- Events of a function or procedure with number `scope`: its name, its scope, its parameters
    and the events of its body. -/
def callableEvents (nest : Nest) (scope : ScopeId) (kind : SymbolKind) (signature : Signature)
    (declaration : Declaration) (body : List Event) : List Event :=
  ⟨nest, .declares kind signature.name declaration⟩ ::
    ⟨nest, .begins .callable signature.name.text signature.name.span.start⟩ ::
    (signature.parameters.names.map fun name =>
      ⟨nest.inside scope, .declares .var name (.parameter name)⟩) ++ body

mutual

/-- Events of a node that stands where a statement is wanted.  The first scope that begins in
    it has the number `next`. -/
def statementEvents (nest : Nest) (next : ScopeId) : Node → List Event
  | .functionDef signature ⟨body, bodySpan⟩ span =>
    callableEvents nest next (nest.functionKind signature.name) signature
      (.node (.functionDef signature ⟨body, bodySpan⟩ span))
      (statementsEvents (nest.inside next) (next + 1) body)
  | .procedureDef signature ⟨body, bodySpan⟩ span =>
    callableEvents nest next .procedure signature
      (.node (.procedureDef signature ⟨body, bodySpan⟩ span))
      (statementsEvents (nest.inside next) (next + 1) body)
  | .varDecl name span => [⟨nest, .declares .var name (.node (.varDecl name span))⟩]
  | .varInit name value span =>
    valueEvents nest value ++ [⟨nest, .declares .var name (.node (.varInit name value span))⟩]
  | .assignment name value span =>
    ⟨nest, .uses (.assigned span) name⟩ :: valueEvents nest value
  | .call ⟨name, ⟨arguments, _⟩, span⟩ =>
    ⟨nest, .uses (.call false span) name⟩ :: valuesEvents nest arguments
  | .block ⟨body, span⟩ =>
    ⟨nest, .begins .block "block" span.start⟩ ::
      statementsEvents (nest.inside next) (next + 1) body
  | .returnStmt value _ => valueEvents nest value
  | .ifStmt condition ⟨body, _⟩ alternative span =>
    let first := valueEvents nest condition ++ ⟨nest, .begins .block "if" span.start⟩ ::
      statementsEvents (nest.inside next) (next + 1) body
    first ++ statementEvents nest (next + scopesIn first) alternative
  | .elseIf condition ⟨body, _⟩ alternative span =>
    let first := valueEvents nest condition ++ ⟨nest, .begins .block "elseif" span.start⟩ ::
      statementsEvents (nest.inside next) (next + 1) body
    first ++ statementEvents nest (next + scopesIn first) alternative
  | .elseClause ⟨body, _⟩ span =>
    ⟨nest, .begins .block "else" span.start⟩ ::
      statementsEvents (nest.inside next) (next + 1) body
  | .forLoop init test update ⟨body, _⟩ span =>
    let inside := nest.inside next
    let first := ⟨nest, .begins .block "for" span.start⟩ :: statementEvents inside (next + 1) init ++
      valueEvents inside test
    let second := first ++ statementEvents inside (next + scopesIn first) update
    second ++ statementsEvents inside (next + scopesIn second) body
  | .whileLoop condition ⟨body, _⟩ span =>
    valueEvents nest condition ++ ⟨nest, .begins .block "while" span.start⟩ ::
      statementsEvents (nest.inside next) (next + 1) body
  | .switchStmt subject cases _ => valueEvents nest subject ++ casesEvents nest next cases
  | .binary left operator right span => valueEvents nest (.binary left operator right span)
  | .unary operator operand span => valueEvents nest (.unary operator operand span)
  | .leaf token => valueEvents nest (.leaf token)
  | .missing _ => []

def statementsEvents (nest : Nest) (next : ScopeId) : List Node → List Event
  | [] => []
  | n :: ns =>
    let first := statementEvents nest next n
    first ++ statementsEvents nest (next + scopesIn first) ns

def casesEvents (nest : Nest) (next : ScopeId) : List (Case Node) → List Event
  | [] => []
  | ⟨value, ⟨body, _⟩, span⟩ :: cs =>
    let first := valueEvents nest value ++ ⟨nest, .begins .block "case" span.start⟩ ::
      statementsEvents (nest.inside next) (next + 1) body
    first ++ casesEvents nest (next + scopesIn first) cs

end

/-- Events of a program.  The outermost scope has the number zero, so the first one inside it
    has the number one. -/
def Program.events (p : Program) : List Event :=
  statementsEvents .outermost (ScopeTree.root + 1) p.declarations

/-! ### What names mean -/

/-- A declaration and the scope it stands in. -/
structure Declared where
  scope : ScopeId
  kind : SymbolKind
  name : Token
  declaration : Declaration
deriving Repr

def Event.declared? (e : Event) : Option Declared :=
  match e.happening with
  | .declares kind name declaration => some ⟨e.nest.scope, kind, name, declaration⟩
  | _ => none

/-- The first declaration of a name in a scope. -/
def firstIn (es : List Event) (scope : ScopeId) (name : String) : Option Declared :=
  (es.filterMap Event.declared?).find? fun d => d.scope = scope ∧ d.name.text = name

/-- What a name means: its first declaration in the nearest scope that has one. -/
def meaning (es : List Event) (nest : Nest) (name : String) : Option Declared :=
  nest.chain.findSome? (firstIn es · name)

/-! ### Errors -/

section

-- errors show declarations as symbols
variable (symbol : Declared → Symbol)

/-- What is wrong with a use of a name, given what the name means. -/
def useError (usage : Usage) (name : Token) (target : Declared) : Option SemanticError :=
  match usage with
  | .value =>
    if target.kind = .procedure then some (.procedureAsValue name (symbol target)) else none
  | .call asValue span =>
    if target.kind = .var then some (.callToVariable name span (symbol target))
    else if asValue ∧ target.kind = .procedure then some (.procedureAsValue name (symbol target))
    else none
  | .assigned span =>
    if target.kind ≠ .var then some (.assignmentToCallable name span (symbol target)) else none

/-- What is wrong with an event, given the events before it. -/
def errorAt (earlier : List Event) (e : Event) : Option SemanticError :=
  match e.happening with
  | .declares _ name _ =>
    (firstIn earlier e.nest.scope name.text).map fun previous => .redefinition name (symbol previous)
  | .uses usage name => (meaning earlier e.nest name.text).bind (useError symbol usage name)
  | .begins .. => none

/-- The name used at an event, if it has no meaning there. -/
def unboundAt (earlier : List Event) (e : Event) : Option Token :=
  match e.happening with
  | .uses _ name => if meaning earlier e.nest name.text = none then some name else none
  | _ => none

/-- Events, each with those before it. -/
def withEarlier (earlier : List Event) : List Event → List (List Event × Event)
  | [] => []
  | e :: es => (earlier, e) :: withEarlier (earlier ++ [e]) es

def walkErrors (es : List Event) : List SemanticError :=
  (withEarlier [] es).filterMap fun (earlier, e) => errorAt symbol earlier e

/-- Uses that no declaration comes before.  A declaration that comes later is reported along
    with them. -/
def unboundErrors (es : List Event) : List SemanticError :=
  (withEarlier [] es).filterMap fun (earlier, e) =>
    (unboundAt earlier e).map fun name =>
      .useBeforeDefinition name ((meaning es e.nest name.text).map symbol)

def mainErrors (es : List Event) : List SemanticError :=
  if (firstIn es ScopeTree.root "main").any (·.kind = .mainFunction) then [] else [.missingMain]

/-- **The errors of a row of events.** -/
def scopingErrors (es : List Event) : List SemanticError :=
  walkErrors symbol es ++ unboundErrors symbol es ++ mainErrors es

end

/-! ### Events put together -/

variable {es es' : List Event} {e : Event} {i : ScopeId} {n : String} {d : Declared}

theorem scopesIn_append (es es' : List Event) : scopesIn (es ++ es') = scopesIn es + scopesIn es' :=
  List.countP_append

theorem callableEvents_append (nest : Nest) (scope : ScopeId) (kind : SymbolKind)
    (signature : Signature) (declaration : Declaration) (body : List Event) :
    callableEvents nest scope kind signature declaration body =
      callableEvents nest scope kind signature declaration [] ++ body := by
  simp [callableEvents]

theorem casesEvents_cons (nest : Nest) (next : ScopeId) (c : Case Node) (cs : List (Case Node)) :
    casesEvents nest next (c :: cs) = casesEvents nest next [c] ++
      casesEvents nest (next + scopesIn (casesEvents nest next [c])) cs := by
  obtain ⟨value, ⟨body, bodySpan⟩, span⟩ := c
  simp [casesEvents]

theorem firstIn_append (es es' : List Event) (i : ScopeId) (n : String) :
    firstIn (es ++ es') i n = (firstIn es i n).or (firstIn es' i n) := by
  rw [firstIn, List.filterMap_append, List.find?_append]
  rfl

theorem Event.scope_of_declared? (h : e.declared? = some d) : d.scope = e.nest.scope := by
  unfold declared? at h
  split at h
  · cases h
    rfl
  · cases h

/-- An event that declares nothing changes no meaning. -/
theorem firstIn_snoc_of_none (h : e.declared? = none) : firstIn (es ++ [e]) i n = firstIn es i n := by
  have hnone : firstIn [e] i n = none := by simp [firstIn, h]
  rw [firstIn_append, hnone, Option.or_none]

theorem firstIn_snoc_of_some (h : e.declared? = some d) :
    firstIn (es ++ [e]) i n =
      (firstIn es i n).or (if d.scope = i ∧ d.name.text = n then some d else none) := by
  rw [firstIn_append]
  congr 1
  by_cases hd : d.scope = i ∧ d.name.text = n
  · rw [if_pos hd]
    simp [firstIn, h, hd]
  · rw [if_neg hd]
    simp only [firstIn, List.filterMap_cons, h, List.filterMap_nil, List.find?_eq_none,
      List.mem_singleton]
    rintro x rfl
    simpa using hd

/-- A name that is declared again keeps its meaning. -/
theorem firstIn_snoc_of_isSome (h : e.declared? = some d)
    (hsome : (firstIn es d.scope d.name.text).isSome) (i : ScopeId) (n : String) :
    firstIn (es ++ [e]) i n = firstIn es i n := by
  rw [firstIn_snoc_of_some h]
  by_cases hd : d.scope = i ∧ d.name.text = n
  · obtain ⟨rfl, rfl⟩ := hd
    rw [Option.or_of_isSome hsome]
  · rw [if_neg hd, Option.or_none]

theorem firstIn_eq_some (h : firstIn es i n = some d) :
    d.scope = i ∧ d.name.text = n ∧ ∃ e ∈ es, e.declared? = some d := by
  have hbinds := List.find?_some h
  have hmem := List.mem_filterMap.mp (List.mem_of_find?_eq_some h)
  obtain ⟨hscope, hname⟩ := of_decide_eq_true hbinds
  exact ⟨hscope, hname, hmem⟩

/-- A declaration that is the first of its name in its scope. -/
def IsFirst (es : List Event) (d : Declared) : Prop := firstIn es d.scope d.name.text = some d

/-- A name that is declared for the first time adds a first declaration. -/
theorem isFirst_snoc_iff (h : e.declared? = some d)
    (hnone : firstIn es d.scope d.name.text = none) {d' : Declared} :
    IsFirst (es ++ [e]) d' ↔ IsFirst es d' ∨ d' = d := by
  rw [IsFirst, IsFirst, firstIn_snoc_of_some h]
  cases hold : firstIn es d'.scope d'.name.text with
  | some first =>
    constructor
    · exact Or.inl
    · rintro (hfirst | rfl)
      · exact hfirst
      · rw [hnone] at hold
        cases hold
  | none =>
    constructor
    · intro hfirst
      by_cases hsame : d.scope = d'.scope ∧ d.name.text = d'.name.text
      · rw [if_pos hsame] at hfirst
        exact Or.inr (Option.some.inj hfirst).symm
      · rw [if_neg hsame] at hfirst
        cases hfirst
    · rintro (hfirst | rfl)
      · cases hfirst
      · simp

/-- What a name means was declared in a scope of the chain. -/
theorem meaning_eq_some {nest : Nest} (h : meaning es nest n = some d) :
    ∃ i ∈ nest.chain, firstIn es i n = some d :=
  List.exists_of_findSome?_eq_some h

theorem withEarlier_append (earlier es es' : List Event) :
    withEarlier earlier (es ++ es') = withEarlier earlier es ++ withEarlier (earlier ++ es) es' := by
  induction es generalizing earlier with
  | nil => rw [List.append_nil]; rfl
  | cons e es ih =>
    rw [List.cons_append, withEarlier, withEarlier, ih, List.append_assoc]
    rfl

/-- The events before an event are those in front of it. -/
theorem mem_withEarlier {earlier before : List Event} (h : (before, e) ∈ withEarlier earlier es) :
    ∃ front rest, es = front ++ e :: rest ∧ before = earlier ++ front := by
  induction es generalizing earlier with
  | nil => cases h
  | cons x es ih =>
    rcases List.mem_cons.mp h with heq | h
    · obtain ⟨rfl, rfl⟩ := Prod.mk.inj heq
      exact ⟨[], es, rfl, (List.append_nil _).symm⟩
    · obtain ⟨front, rest, rfl, rfl⟩ := ih h
      exact ⟨x :: front, rest, rfl, by simp⟩

theorem walkErrors_snoc (symbol : Declared → Symbol) (es : List Event) (e : Event) :
    walkErrors symbol (es ++ [e]) = walkErrors symbol es ++ (errorAt symbol es e).toList := by
  rw [walkErrors, withEarlier_append, List.filterMap_append]
  cases h : errorAt symbol es e with
  | none => simp [walkErrors, withEarlier, h]
  | some x => simp [walkErrors, withEarlier, h]

theorem useError_congr {f g : Declared → Symbol} (h : f d = g d) (usage : Usage) (name : Token) :
    useError f usage name d = useError g usage name d := by
  cases usage with
  | value => simp only [useError, h]
  | call asValue span => simp only [useError, h]
  | assigned span => simp only [useError, h]

theorem errorAt_congr {f g : Declared → Symbol}
    (h : ∀ e ∈ es, ∀ d, e.declared? = some d → f d = g d) : errorAt f es e = errorAt g es e := by
  unfold errorAt
  split
  · refine Option.map_congr ?_
    intro d hd
    obtain ⟨-, -, e', he', hdeclared⟩ := firstIn_eq_some hd
    rw [h e' he' d hdeclared]
  · refine Option.bind_congr ?_
    intro d hd
    obtain ⟨i, -, hfirst⟩ := meaning_eq_some hd
    obtain ⟨-, -, e', he', hdeclared⟩ := firstIn_eq_some hfirst
    exact useError_congr (h e' he' d hdeclared) _ _
  · rfl

/-- Errors show nothing of symbols that are not declared. -/
theorem walkErrors_congr {f g : Declared → Symbol}
    (h : ∀ e ∈ es, ∀ d, e.declared? = some d → f d = g d) : walkErrors f es = walkErrors g es := by
  apply List.filterMap_congr
  rintro ⟨before, e⟩ hmem
  obtain ⟨front, rest, rfl, rfl⟩ := mem_withEarlier hmem
  exact errorAt_congr fun e' he' => h e' (List.mem_append_left _ he')

/-! ### Events that name scopes apart -/

def Event.place? (e : Event) : Option Position :=
  match e.happening with
  | .begins _ _ place => some place
  | _ => none

/-- Where scopes begin. -/
def places (es : List Event) : List Position := es.filterMap Event.place?

/-- What is declared, or a scope is called after, is a word. -/
def Event.Worded (e : Event) : Prop :=
  match e.happening with
  | .declares _ name _ => IsWord name.text
  | .uses .. => True
  | .begins _ construct _ => IsWord construct

/-- Names are words, and no two scopes begin in one place. -/
structure Fit (es : List Event) : Prop where
  worded : ∀ e ∈ es, e.Worded
  nodup : (places es).Nodup

theorem places_append (es es' : List Event) : places (es ++ es') = places es ++ places es' :=
  List.filterMap_append

theorem Event.Worded.of_declared? (h : e.Worded) (hd : e.declared? = some d) :
    IsWord d.name.text := by
  unfold Event.declared? at hd
  split at hd
  · rename_i hhappening
    rw [Event.Worded, hhappening] at h
    cases hd
    exact h
  · cases hd

theorem Fit.last (h : Fit (es ++ [e])) : e.Worded :=
  h.worded e (List.mem_append_right es (List.mem_cons_self ..))

theorem Fit.left (h : Fit (es ++ es')) : Fit es := by
  have hplaces := h.nodup
  rw [places_append] at hplaces
  refine ⟨?_, (List.nodup_append.mp hplaces).1⟩
  intro e he
  exact h.worded e (List.mem_append_left es' he)

/-- Where a scope begins, none has begun before. -/
theorem Fit.not_mem_places (h : Fit (es ++ e :: es')) {place : Position}
    (he : e.place? = some place) : place ∉ places es := by
  intro hmem
  have hplaces := h.nodup
  rw [places_append] at hplaces
  have hfirst : place ∈ places (e :: es') := by
    rw [places, List.filterMap_cons, he]
    exact List.mem_cons_self ..
  exact (List.nodup_append.mp hplaces).2.2 place hmem place hfirst rfl

/-! ### Events of values -/

/-- Events that only use names. -/
def OnlyUses (es : List Event) : Prop := ∀ e ∈ es, ∃ nest usage name, e = ⟨nest, .uses usage name⟩

theorem OnlyUses.nil : OnlyUses [] := by
  intro e he
  cases he

theorem OnlyUses.append (h : OnlyUses es) (h' : OnlyUses es') : OnlyUses (es ++ es') := by
  intro e he
  rcases List.mem_append.mp he with he | he
  · exact h e he
  · exact h' e he

theorem OnlyUses.single (nest : Nest) (usage : Usage) (name : Token) :
    OnlyUses [⟨nest, .uses usage name⟩] := by
  intro e he
  exact ⟨nest, usage, name, List.mem_singleton.mp he⟩

theorem OnlyUses.scopesIn_eq (h : OnlyUses es) : scopesIn es = 0 := by
  apply List.countP_eq_zero.mpr
  intro e he
  obtain ⟨nest, usage, name, rfl⟩ := h e he
  exact Bool.false_ne_true

theorem OnlyUses.places_eq (h : OnlyUses es) : places es = [] := by
  apply List.filterMap_eq_nil_iff.mpr
  intro e he
  obtain ⟨nest, usage, name, rfl⟩ := h e he
  rfl

theorem OnlyUses.worded (h : OnlyUses es) : ∀ e ∈ es, e.Worded := by
  intro e he
  obtain ⟨nest, usage, name, rfl⟩ := h e he
  trivial

mutual

/-- A value declares nothing, and no scope begins in it. -/
theorem onlyUses_value (nest : Nest) (n : Node) : OnlyUses (valueEvents nest n) := by
  cases n with
  | leaf token =>
    rw [valueEvents]
    by_cases hident : token.kind = .ident
    · rw [if_pos hident]
      exact .single nest .value token
    · rw [if_neg hident]
      exact .nil
  | call c =>
    obtain ⟨name, ⟨arguments, argumentsSpan⟩, span⟩ := c
    exact (OnlyUses.single nest (.call true span) name).append (onlyUses_values nest arguments)
  | binary left operator right span =>
    rw [valueEvents]
    exact (onlyUses_value nest left).append (onlyUses_value nest right)
  | unary operator operand span =>
    rw [valueEvents]
    exact onlyUses_value nest operand
  | _ => exact .nil

theorem onlyUses_values (nest : Nest) (ns : List Node) : OnlyUses (valuesEvents nest ns) := by
  cases ns with
  | nil => exact .nil
  | cons n ns =>
    rw [valuesEvents]
    exact (onlyUses_value nest n).append (onlyUses_values nest ns)

end

end TarnLang
