/-
  TarnLang/Proofs/Resolution/Origin.lean
  ======================================
  **Where the names and scopes of a text come from.**  A name is a token that was read as a
  word, and each scope begins at a token of its own: the keyword, the brace or the name that
  opens it.  `Stretch i j es` says so of the events between two places.  Stretches are put
  together as phrases are, by induction on how a program is written.  Tokens of a text start
  at different positions, so no two scopes of a program begin in one place.
-/
import TarnLang.Proofs.Grammar.Leaves
import TarnLang.Proofs.Resolution.Scoping

namespace TarnLang

variable {ts : Array Token} {i j k l : Place ts}

/-- What is written between two places does not go back. -/
theorem Written.le {p : Phrase} (h : Written p i j) : i ≤ j := by
  obtain ⟨u, hu, -⟩ := h.row
  exact Place.le_of_append hu

/-! ### Stretches -/

namespace Place

/-- The scopes among the events begin at tokens between two places, in order, each at another. -/
def Stretch (i j : Place ts) (es : List Event) : Prop :=
  ∃ u, i.tokens = u ++ j.tokens ∧ (places es).Sublist (u.map fun t => t.span.start) ∧
    ∀ e ∈ es, e.Worded

namespace Stretch

variable {es es' : List Event} {e : Event} {kind : TokenKind} {t : Token} {nest : Nest}

theorem uses (hle : i ≤ j) (h : OnlyUses es) : Stretch i j es := by
  obtain ⟨u, hu⟩ := exists_append_of_le hle
  refine ⟨u, hu, ?_, h.worded⟩
  rw [h.places_eq]
  exact List.nil_sublist _

theorem nil : Stretch i i [] := uses (Fin.le_refl i) .nil

theorem append (h : Stretch i j es) (h' : Stretch j k es') : Stretch i k (es ++ es') := by
  obtain ⟨u, hu, hplaces, hworded⟩ := h
  obtain ⟨v, hv, hplaces', hworded'⟩ := h'
  refine ⟨u ++ v, ?_, ?_, ?_⟩
  · rw [hu, hv, List.append_assoc]
  · rw [places_append, List.map_append]
    exact hplaces.append hplaces'
  · intro e he
    rcases List.mem_append.mp he with he | he
    · exact hworded e he
    · exact hworded' e he

theorem le (h : Stretch i j es) : i ≤ j := by
  obtain ⟨u, hu, -⟩ := h
  exact le_of_append hu

/-- More tokens may stand in front. -/
theorem skip (hle : i ≤ j) (h : Stretch j k es) : Stretch i k es := (uses hle .nil).append h

theorem before (ht : Takes kind i t j) (h : Stretch j k es) : Stretch i k es :=
  h.skip (Fin.le_of_lt ht.lt)

/-- One more token may stand behind. -/
theorem behind (h : Stretch i j es) (ht : Takes kind j t k) : Stretch i k es := by
  have hnothing : Stretch j k [] := uses (Fin.le_of_lt ht.lt) .nil
  rw [← List.append_nil es]
  exact h.append hnothing

/-- A value may be met first, wherever it stands. -/
theorem afterValue (n : Node) (h : Stretch i j es) : Stretch i j (valueEvents nest n ++ es) :=
  (uses (Fin.le_refl i) (onlyUses_value nest n)).append h

/-- A scope begins at the first token. -/
theorem begins {scopeKind : ScopeKind} {construct : String} {place : Position}
    (ht : Takes kind i t j) (hplace : place = t.span.start) (hword : IsWord construct)
    (h : Stretch j k es) : Stretch i k (⟨nest, .begins scopeKind construct place⟩ :: es) := by
  obtain ⟨u, hu, hplaces, hworded⟩ := h
  subst hplace
  refine ⟨t :: u, ?_, hplaces.cons_cons _, ?_⟩
  · rw [ht.tokens_eq, hu, List.cons_append]
  · intro e he
    rcases List.mem_cons.mp he with rfl | he
    · exact hword
    · exact hworded e he

theorem declares {symbolKind : SymbolKind} {name : Token} {declaration : Declaration}
    (hword : IsWord name.text) (h : Stretch i j es) :
    Stretch i j (⟨nest, .declares symbolKind name declaration⟩ :: es) := by
  obtain ⟨u, hu, hplaces, hworded⟩ := h
  refine ⟨u, hu, hplaces, ?_⟩
  intro e he
  rcases List.mem_cons.mp he with rfl | he
  · exact hword
  · exact hworded e he

theorem parameters (nest : Nest) {names : List Token} (hwords : ∀ t ∈ names, IsWord t.text) :
    Stretch i i (names.map fun name => ⟨nest, .declares .var name (.parameter name)⟩) := by
  induction names with
  | nil => exact nil
  | cons name names ih =>
    have hrest := ih fun t ht => hwords t (List.mem_cons_of_mem name ht)
    exact hrest.declares (hwords name (List.mem_cons_self ..))

theorem tail (h : Stretch i j (e :: es)) : Stretch i j es := by
  obtain ⟨u, hu, hplaces, hworded⟩ := h
  refine ⟨u, hu, ?_, fun e' he' => hworded e' (List.mem_cons_of_mem e he')⟩
  have hsublist : (places es).Sublist (places (e :: es)) :=
    (List.sublist_cons_self e es).filterMap Event.place?
  exact hsublist.trans hplaces

end Stretch

end Place

/-! ### Phrases -/

open Place

/-- The events of a phrase are a stretch, whatever stands around it. -/
def Phrase.Stretches (i j : Place ts) : Phrase → Prop
  | .declaration n | .assignment n | .forInit n | .alternative n | .statement n
  | .optional .alternative n | .optional .forInit n | .optional .assignment n =>
    ∀ nest next, Stretch i j (statementEvents nest next n)
  | .statements ns | .declarations ns => ∀ nest next, Stretch i j (statementsEvents nest next ns)
  | .block b => ∀ outer nest next, Stretch i j
    (⟨outer, .begins .block "block" b.span.start⟩ :: statementsEvents nest next b.statements)
  | .caseClause c => ∀ nest next, Stretch i j (casesEvents nest next [c])
  | .cases cs => ∀ nest next, Stretch i j (casesEvents nest next cs)
  | .signature s => ∀ nest next kind declaration,
    Stretch i j (callableEvents nest next kind s declaration [])
  | .names ns => ∀ t ∈ ns, IsWord t.text
  | .parameterList ps => ∀ t ∈ ps.names, IsWord t.text
  | _ => True

namespace Phrase

theorem stretches_missing (part : OptionalPart) (f : ParseFailure) :
    (optional part (.missing f)).Stretches i i := by
  cases part with
  | value => trivial
  | alternative => exact fun _ _ => .nil
  | forInit => exact fun _ _ => .nil
  | assignment => exact fun _ _ => .nil

theorem stretches_part {p : OptionalPart} {n : Node} (h : (part p n).Stretches i j) :
    (optional p n).Stretches i j := by
  cases p with
  | value => trivial
  | alternative => exact h
  | forInit => exact h
  | assignment => exact h

end Phrase

/-- A value is a stretch where it may be missing. -/
theorem Written.stretch_value {p : OptionalPart} {n : Node} (h : Written (.optional p n) i j)
    (nest : Nest) : Stretch i j (valueEvents nest n) := .uses h.le (onlyUses_value nest n)

section

variable (hwords : ∀ t ∈ ts, t.kind = .ident → IsWord t.text)

include hwords

theorem Place.Takes.isWord {name : Token} (h : Takes .ident i name j) : IsWord name.text :=
  hwords name h.mem h.kind_eq

/-- **The events of what is written between two places are a stretch.** -/
theorem Written.stretches {p : Phrase} (h : Written p i j) : p.Stretches i j := by
  -- scopes begin at the first token of their phrase, and events of values begin none; so a value
  -- may be met before the scope although it stands behind the token
  induction h with
  | lastName hname =>
    intro t ht
    rw [List.mem_singleton.mp ht]
    exact hname.isWord hwords
  | moreNames hname _ _ ih =>
    intro t ht
    rcases List.mem_cons.mp ht with rfl | ht
    · exact hname.isWord hwords
    · exact ih t ht
  | noParameters =>
    intro t ht
    cases ht
  | parameterList _ _ _ ih => exact ih
  | signature hname hlist ih =>
    intro nest next kind declaration
    have hword := hname.isWord hwords
    have hparameters := (Stretch.parameters (nest.inside next) ih).skip hlist.le
    rw [callableEvents, List.append_nil]
    exact (hparameters.begins hname rfl hword).declares hword
  | functionDef ht hs hb ihs ihb =>
    intro nest next
    have hbody := (ihb nest (nest.inside next) (next + 1)).tail
    rw [statementEvents, callableEvents_append]
    exact ((ihs nest next _ _).append hbody).before ht
  | procedureDef ht hs hb ihs ihb =>
    intro nest next
    have hbody := (ihb nest (nest.inside next) (next + 1)).tail
    rw [statementEvents, callableEvents_append]
    exact ((ihs nest next _ _).append hbody).before ht
  | varDecl ht hname ht' =>
    intro nest next
    have hle := (Written.varDecl ht hname ht').le
    exact (Stretch.uses hle .nil).declares (hname.isWord hwords)
  | varInit ht hname heq hn ht' =>
    intro nest next
    have hle := (Written.varInit ht hname heq hn ht').le
    exact ((Stretch.uses hle .nil).declares (hname.isWord hwords)).afterValue _
  | assignment hname heq hn =>
    intro nest next
    have hle := (Written.assignment hname heq hn).le
    exact Stretch.uses hle ((OnlyUses.single nest _ _).append (onlyUses_value nest _))
  | forDeclaration ht hname heq hn =>
    intro nest next
    have hle := (Written.forDeclaration ht hname heq hn).le
    exact ((Stretch.uses hle .nil).declares (hname.isWord hwords)).afterValue _
  | forAssignment _ ih => exact ih
  | elseIf ht ht' ht₁ hn ht₂ hb ha _ ihb iha =>
    intro nest next
    have hbody := (ihb nest (nest.inside next) (next + 1)).tail
    have hinside := (((hbody.before ht₂).skip hn.le).before ht₁).before ht'
    have hplace := spanTo_start ht (Fin.le_trans hinside.le ha.le)
    exact ((hinside.begins ht hplace (by decide)).afterValue _).append (iha nest _)
  | elseClause ht hb ih =>
    intro nest next
    have hbody := (ih nest (nest.inside next) (next + 1)).tail
    exact hbody.begins ht (spanTo_start ht hb.le) (by decide)
  | absent _ => exact Phrase.stretches_missing _ _
  | present _ ih => exact Phrase.stretches_part ih
  | declarationStatement _ ih => exact ih
  | assignmentStatement _ ht ih => exact fun nest next => (ih nest next).behind ht
  | callStatement hc ht =>
    intro nest next
    have hle := (Written.callStatement hc ht).le
    exact Stretch.uses hle ((OnlyUses.single nest _ _).append (onlyUses_values nest _))
  | returnStmt ht hn ht' => exact fun nest _ => ((hn.stretch_value nest).behind ht').before ht
  | ifStmt ht ht₁ hn ht₂ hb ha _ ihb iha =>
    intro nest next
    have hbody := (ihb nest (nest.inside next) (next + 1)).tail
    have hinside := ((hbody.before ht₂).skip hn.le).before ht₁
    have hplace := spanTo_start ht (Fin.le_trans hinside.le ha.le)
    exact ((hinside.begins ht hplace (by decide)).afterValue _).append (iha nest _)
  | forLoop ht ht₁ hinit ht₂ htest ht₃ hupdate ht₄ hb ihinit _ ihupdate ihb =>
    intro nest next
    have hinit := (ihinit (nest.inside next) (next + 1)).behind ht₂
    have htest := (htest.stretch_value (nest.inside next)).behind ht₃
    have hhead := (hinit.append htest).before ht₁
    have hupdates := fun next' => (ihupdate (nest.inside next) next').behind ht₄
    have hbodies := fun next' => (ihb nest (nest.inside next) next').tail
    have hle := Fin.le_trans hhead.le (Fin.le_trans (hupdates next).le hb.le)
    rw [statementEvents]
    refine Stretch.begins ht (spanTo_start ht hle) (by decide) ?_
    exact (hhead.append (hupdates _)).append (hbodies _)
  | whileLoop ht ht₁ hn ht₂ hb _ ih =>
    intro nest next
    have hbody := (ih nest (nest.inside next) (next + 1)).tail
    have hinside := ((hbody.before ht₂).skip hn.le).before ht₁
    exact (hinside.begins ht (spanTo_start ht hinside.le) (by decide)).afterValue _
  | switchStmt ht ht₁ hn ht₂ ht₃ hc ht₄ _ ih =>
    intro nest next
    have hcases := ((ih nest next).behind ht₄).before ht₃
    exact ((((hcases.before ht₂).skip hn.le).before ht₁).before ht).afterValue _
  | blockStatement _ ih => exact fun nest next => ih nest (nest.inside next) (next + 1)
  | noStatements => exact fun _ _ => .nil
  | moreStatements _ _ ih ih' => exact fun nest next => (ih nest next).append (ih' nest _)
  | block ht hs ht' ih =>
    intro outer nest next
    have hinside := (ih nest next).behind ht'
    exact hinside.begins ht (spanTo_start ht hinside.le) (by decide)
  | caseClause ht hn hb _ ih =>
    intro nest next
    have hinside := ((ih nest (nest.inside next) (next + 1)).tail).skip hn.le
    have hplace := spanTo_start ht hinside.le
    exact ((hinside.begins ht hplace (by decide)).afterValue _).append .nil
  | noCases => exact fun _ _ => .nil
  | moreCases _ _ ih ih' =>
    intro nest next
    rw [casesEvents_cons]
    exact (ih nest next).append (ih' nest _)
  | noDeclarations => exact fun _ _ => .nil
  | moreDeclarations _ _ ih ih' => exact fun nest next => (ih nest next).append (ih' nest _)
  | _ => trivial

end

/-! ### Programs -/

/-- **Names of a program that was read from a text are words, and no two of its scopes begin in
    one place.** -/
theorem fit_of_parse {source : String} {p : Program} (hsize : source.utf8ByteSize ≤ 2 ^ 32 - 2)
    (hp : parse (tokenize source).tokens = .ok p) : Fit p.events := by
  have hlength : source.utf8ByteSize < 2 ^ 32 - 1 := by omega
  have horder := inOrder_tokenize hlength
  obtain ⟨k, eof, j, hwritten, -, -, -⟩ := exists_written_of_parse hp
  have hwords : ∀ t ∈ (tokenize source).tokens, t.kind = .ident → IsWord t.text :=
    fun t ht hkind => isWordRest_of_ident ht hkind
  obtain ⟨u, hu, hplaces, hworded⟩ :=
    hwritten.stretches hwords .outermost (ScopeTree.root + 1)
  refine ⟨hworded, ?_⟩
  have hnodup : (u.map fun t => t.span.start).Nodup := by
    -- later tokens start at later positions
    have hsublist : u.Sublist (tokenize source).tokens.toList := by
      rw [← tokens_first, hu]
      exact List.sublist_append_left u _
    apply List.pairwise_map.mpr
    apply (horder.apart.sublist hsublist).imp
    intro a b hapart
    exact Position.ne_of_lt hapart.1
  exact hnodup.sublist hplaces

end TarnLang
