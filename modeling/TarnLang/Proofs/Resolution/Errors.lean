/-
  TarnLang/Proofs/Resolution/Errors.lean
  ======================================
  **What the resolution of a text reports.**  The errors of a resolved program are those of
  lexical scoping, and the qualified names of its scope tree never alias.  Both are read off
  the walk, which follows the events of a program when these are fit; the events of a
  program that was read from a text are.
-/
import TarnLang.Proofs.Resolution.Origin
import TarnLang.Proofs.Resolution.Traversal

namespace TarnLang

/-! ### Redefinitions -/

theorem Event.eq_of_declared? {e : Event} {d : Declared} (h : e.declared? = some d) :
    e = ⟨e.nest, .declares d.kind d.name d.declaration⟩ ∧ d.scope = e.nest.scope := by
  obtain ⟨nest, happening⟩ := e
  cases happening with
  | declares kind name declaration =>
    cases h
    exact ⟨rfl, rfl⟩
  | uses usage name => cases h
  | begins kind construct place => cases h

/-- What can be wrong with a use whose name means something. -/
theorem useError_cases {symbol : Declared → Symbol} {usage : Usage} {name : Token} {d : Declared}
    {x : SemanticError} (h : useError symbol usage name d = some x) :
    x = .procedureAsValue name (symbol d) ∨ (∃ span, x = .callToVariable name span (symbol d)) ∨
      ∃ span, x = .assignmentToCallable name span (symbol d) := by
  cases usage with
  | value =>
    simp only [useError] at h
    split at h
    · exact .inl (Option.some.inj h).symm
    · cases h
  | call asValue span =>
    simp only [useError] at h
    split at h
    · exact .inr (.inl ⟨span, (Option.some.inj h).symm⟩)
    · split at h
      · exact .inl (Option.some.inj h).symm
      · cases h
  | assigned span =>
    simp only [useError] at h
    split at h
    · exact .inr (.inr ⟨span, (Option.some.inj h).symm⟩)
    · cases h

theorem useError_ne_redefinition {symbol : Declared → Symbol} {usage : Usage} {name n : Token}
    {d : Declared} {s : Symbol} : useError symbol usage name d ≠ some (.redefinition n s) := by
  intro h
  rcases useError_cases h with heq | ⟨span, heq⟩ | ⟨span, heq⟩
  · cases heq
  · cases heq
  · cases heq

/-- Only a declaration is reported as a redefinition, and only where its scope declares the name
    already. -/
theorem errorAt_redefinition {symbol : Declared → Symbol} {earlier : List Event} {e : Event}
    {name : Token} {previous : Symbol}
    (h : errorAt symbol earlier e = some (.redefinition name previous)) :
    ∃ kind declaration d, e = ⟨e.nest, .declares kind name declaration⟩ ∧
      firstIn earlier e.nest.scope name.text = some d ∧ symbol d = previous := by
  obtain ⟨nest, happening⟩ := e
  cases happening with
  | declares kind name' declaration =>
    obtain ⟨d, hd, heq⟩ := Option.map_eq_some_iff.mp h
    cases heq
    exact ⟨kind, declaration, d, rfl, hd, rfl⟩
  | uses usage name' =>
    obtain ⟨d, -, heq⟩ := Option.bind_eq_some_iff.mp h
    exact absurd heq useError_ne_redefinition
  | begins kind construct place => cases h

/-- A redefinition among the errors of a row of events is reported by one of them. -/
theorem exists_errorAt_of_redefinition {symbol : Declared → Symbol} {es : List Event}
    {name : Token} {previous : Symbol}
    (h : .redefinition name previous ∈ scopingErrors symbol es) :
    ∃ earlier e later, es = earlier ++ e :: later ∧
      errorAt symbol earlier e = some (.redefinition name previous) := by
  rcases List.mem_append.mp h with h | h
  · rcases List.mem_append.mp h with h | h
    · -- of the three parts only the first holds redefinitions
      obtain ⟨⟨before, e⟩, hmem, herror⟩ := List.mem_filterMap.mp h
      obtain ⟨front, rest, rfl, rfl⟩ := mem_withEarlier hmem
      exact ⟨before, e, rest, rfl, herror⟩
    · obtain ⟨⟨before, e⟩, -, herror⟩ := List.mem_filterMap.mp h
      obtain ⟨use, -, heq⟩ := Option.map_eq_some_iff.mp herror
      cases heq
  · unfold mainErrors at h
    split at h
    · cases h
    · cases List.mem_singleton.mp h

/-! ### Resolved programs -/

variable {source : String} {p : Program}

/-- **The resolver agrees with lexical scoping.**  The errors of a program that was read from a
    text are, in the order of its events, names declared twice in a scope and uses that do
    not fit what the name means; then the uses without a meaning; then a missing main
    function. -/
theorem resolve_errors_eq (hsize : source.utf8ByteSize ≤ 2 ^ 32 - 2)
    (hp : parse (tokenize source).tokens = .ok p) :
    (resolve p).errors.toList = scopingErrors (Declared.symbol (resolve p).scopes) p.events :=
  (Walk.follows_program (fit_of_parse hsize hp)).finish_errors

theorem resolve_errors_of_redefinition :
    ∃ p, parse (tokenize "let x = y; let x = 1;").tokens = .ok p ∧
      (resolve p).errors.toList.map (·.kindName) =
        ["redefinition", "use-before-definition", "missing-main"] := by
  have hnames : (parse (tokenize "let x = y; let x = 1;").tokens).toOption.map (fun p =>
      (scopingErrors (Declared.symbol (resolve p).scopes) p.events).map (·.kindName)) =
        some ["redefinition", "use-before-definition", "missing-main"] := by
    decide +kernel
  cases h : parse (tokenize "let x = y; let x = 1;").tokens with
  | ok p =>
    rw [h] at hnames
    refine ⟨p, rfl, ?_⟩
    rw [resolve_errors_eq (by decide) h]
    exact Option.some.inj hnames
  | error e =>
    rw [h] at hnames
    cases hnames

/-- **Qualified names never alias.**  Scopes side by side have different names, a qualified name
    belongs to one scope and one name in it, and what is reported as a redefinition
    declares a name that was declared in the very same scope before. -/
theorem qualified_names_distinct (hsize : source.utf8ByteSize ≤ 2 ^ 32 - 2)
    (hp : parse (tokenize source).tokens = .ok p) :
    (∀ i j s s', (resolve p).scopes.get? i = some s → (resolve p).scopes.get? j = some s' →
      i ≠ j → s.parent = s'.parent → s.name ≠ s'.name) ∧
    (∀ i j, i < (resolve p).scopes.size → j < (resolve p).scopes.size →
      ∀ t ∈ (tokenize source).tokens, ∀ t' ∈ (tokenize source).tokens,
        t.kind = .ident → t'.kind = .ident →
        (resolve p).scopes.qualify i t.text = (resolve p).scopes.qualify j t'.text →
        i = j ∧ t.text = t'.text) ∧
    ∀ name previous, .redefinition name previous ∈ (resolve p).errors →
      ∃ earlier later nest kind declaration outer,
        p.events = earlier ++ ⟨nest, .declares kind name declaration⟩ :: later ∧
        ⟨outer, .declares previous.kind previous.name previous.declaration⟩ ∈ earlier ∧
        outer.scope = nest.scope ∧ previous.scope = nest.scope ∧
        previous.name.text = name.text := by
  have hfollows := Walk.follows_program (fit_of_parse hsize hp)
  refine ⟨?_, ?_, ?_⟩
  · intro i j s s' hs hs' hne hparent hname
    exact hne (hfollows.distinct hs hs' hparent hname)
  · intro i j hi hj t ht t' ht' hident hident' heq
    have hword : IsWord t.text := isWordRest_of_ident ht hident
    have hword' : IsWord t'.text := isWordRest_of_ident ht' hident'
    exact hfollows.qualify_injective hi hj hword hword' heq
  · intro name previous hmem
    have hmem := Array.mem_def.mp hmem
    rw [show (resolve p).errors.toList = _ from hfollows.finish_errors] at hmem
    obtain ⟨earlier, e, later, hevents, herror⟩ := exists_errorAt_of_redefinition hmem
    obtain ⟨kind, declaration, d, he, hfirst, rfl⟩ := errorAt_redefinition herror
    obtain ⟨hscope, htext, e', he', hdeclared⟩ := firstIn_eq_some hfirst
    obtain ⟨heq, houter⟩ := Event.eq_of_declared? hdeclared
    refine ⟨earlier, later, e.nest, kind, declaration, e'.nest, ?_, ?_, ?_, hscope, htext⟩
    · rw [hevents, ← he]
    · rw [heq] at he'
      exact he'
    · rw [← houter, hscope]

/-- Both procedures have a scope, and the names in them differ. -/
theorem qualified_names_of_redefined_procedure :
    ∃ p, parse (tokenize "proc f() \x7b\x7d proc f() \x7b\x7d").tokens = .ok p ∧
      (resolve p).scopes.size = 3 ∧
      ∀ i j, i < 3 → j < 3 →
        (resolve p).scopes.qualify i "f" = (resolve p).scopes.qualify j "f" → i = j := by
  have hscopes : (parse (tokenize "proc f() \x7b\x7d proc f() \x7b\x7d").tokens).toOption.map
      (fun p => (resolve p).scopes.size) = some 3 := by
    decide +kernel
  have hname : ∃ t ∈ (tokenize "proc f() \x7b\x7d proc f() \x7b\x7d").tokens.toList,
      t.kind = .ident ∧ t.text = "f" := by
    decide +kernel
  cases h : parse (tokenize "proc f() \x7b\x7d proc f() \x7b\x7d").tokens with
  | ok p =>
    rw [h] at hscopes
    have hsize : (resolve p).scopes.size = 3 := Option.some.inj hscopes
    obtain ⟨t, ht, hident, htext⟩ := hname
    obtain ⟨-, hqualified, -⟩ := qualified_names_distinct (by decide) h
    refine ⟨p, rfl, hsize, ?_⟩
    intro i j hi hj heq
    rw [← hsize] at hi hj
    rw [← htext] at heq
    have ht := Array.mem_def.mpr ht
    exact (hqualified i j hi hj t ht t ht hident hident heq).1
  | error e =>
    rw [h] at hscopes
    cases hscopes

end TarnLang
