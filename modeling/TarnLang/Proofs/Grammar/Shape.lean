/-
  TarnLang/Proofs/Grammar/Shape.lean
  ==================================
  **Parsed trees are well shaped.**  All nodes are of one type, but not every node stands in
  every position.  A `Slot` is a position for nodes; it takes nodes of certain shapes, and in
  some slots a part may be missing.  The mark of a missing part keeps the failure to read it,
  and with it the token that stands there instead: the semicolon or the parenthesis that has
  to follow, or, behind the body of an `if`, whatever follows it, but no `else`.

  Whether an `else` follows a statement cannot be told from the statement.  What follows is
  the next statement or the brace that ends the block, and none of these begins with `else`.
-/
import TarnLang.Lexer
import TarnLang.Proofs.Grammar.Soundness
import TarnLang.Proofs.Parser.Acceptance

namespace TarnLang

/-! ### Slots -/

/-- Positions in which nodes stand. -/
inductive Slot
  | declaration | statement | value | returnValue | alternative | forInit | forTest | forUpdate
deriving DecidableEq, Repr

namespace Slot

def takesDeclaration : Node → Bool
  | .functionDef .. | .procedureDef .. | .varInit .. | .varDecl .. => true
  | _ => false

def takesStatement : Node → Bool
  | .functionDef .. | .procedureDef .. | .varInit .. | .varDecl .. | .assignment .. | .call _
  | .returnStmt .. | .ifStmt .. | .forLoop .. | .whileLoop .. | .switchStmt .. | .block _ => true
  | _ => false

def takesValue : Node → Bool
  | .call _ | .binary .. | .unary .. => true
  | .leaf t => t.kind ∈ [.int, .str, .trueKw, .falseKw, .ident]
  | _ => false

def takesAlternative : Node → Bool
  | .elseIf .. | .elseClause .. => true
  | _ => false

def takesForInit : Node → Bool
  | .varInit .. | .assignment .. => true
  | _ => false

def takesForUpdate : Node → Bool
  | .assignment .. => true
  | _ => false

/-- Whether a node that is not missing may stand in a slot. -/
def takes : Slot → Node → Bool
  | declaration => takesDeclaration
  | statement => takesStatement
  | value | returnValue | forTest => takesValue
  | alternative => takesAlternative
  | forInit => takesForInit
  | forUpdate => takesForUpdate

/-- Kinds of tokens that may stand where the part for a slot is missing.  A part that has to be
    there is never missing. -/
def instead : Slot → TokenKind → Bool
  | returnValue | forInit | forTest => (· = .semi)
  | forUpdate => (· = .rParen)
  | alternative => (· ≠ .elseKw)
  | declaration | statement | value => fun _ => false

/-- A node that stands in a slot. -/
inductive Fits (ts : Array Token) (slot : Slot) : Node → Prop
  | present {n : Node} : slot.takes n = true → Fits ts slot n
  | missing {f : ParseFailure} : ts[f.offset]? = some f.found →
      slot.instead f.found.kind = true → Fits ts slot (.missing f)

end Slot

/-! ### Nodes and what stands in them -/

/-- Operators between two operands. -/
def binaryOperators : List TokenKind :=
  [.orKw, .andKw, .eqEq, .bangEq, .lt, .gt, .ltEq, .gtEq, .plus, .minus, .star, .slash, .percent]

namespace Node

/-- Nodes that stand directly in a node, each with its slot. -/
def parts : Node → List (Slot × Node)
  | functionDef _ body _ | procedureDef _ body _ => body.statements.map (.statement, ·)
  | varDecl .. => []
  | varInit _ value _ | assignment _ value _ => [(.value, value)]
  | call c => c.arguments.arguments.map (.value, ·)
  | block b => b.statements.map (.statement, ·)
  | returnStmt value _ => [(.returnValue, value)]
  | ifStmt condition body alternative _ | elseIf condition body alternative _ =>
    (.value, condition) :: (.alternative, alternative) :: body.statements.map (.statement, ·)
  | elseClause body _ => body.statements.map (.statement, ·)
  | forLoop init test update body _ =>
    (.forInit, init) :: (.forTest, test) :: (.forUpdate, update) ::
      body.statements.map (.statement, ·)
  | whileLoop condition body _ => (.value, condition) :: body.statements.map (.statement, ·)
  | switchStmt subject cases _ =>
    (.value, subject) :: cases.flatMap fun c =>
      (.value, c.value) :: c.body.statements.map (.statement, ·)
  | binary left _ right _ => [(.value, left), (.value, right)]
  | unary _ operand _ => [(.value, operand)]
  | leaf _ | missing _ => []

/-- Names and parameters that stand directly in a node. -/
def names : Node → List Token
  | functionDef signature _ _ | procedureDef signature _ _ =>
    signature.name :: signature.parameters.names
  | varDecl name _ | varInit name _ _ | assignment name _ _ => [name]
  | call c => [c.name]
  | _ => []

/-- Whether the operator of a node, if it has one, is one for its operands. -/
def operatorFits : Node → Bool
  | binary _ op _ _ => op.kind ∈ binaryOperators
  | unary op _ _ => op.kind ∈ [.minus, .notKw]
  | _ => true

/-- The tokens of a node are of the kinds that belong there. -/
structure TokensFit (n : Node) : Prop where
  names : ∀ t ∈ n.names, t.kind = .ident
  operator : n.operatorFits = true

/-- A node with fitting tokens, in which fitting nodes stand, down to the leaves. -/
inductive WellShaped (ts : Array Token) : Node → Prop
  | node {n : Node} : n.TokensFit → (∀ q ∈ n.parts, q.1.Fits ts q.2) →
      (∀ q ∈ n.parts, WellShaped ts q.2) → WellShaped ts n

end Node

/-- A node of a program, and the slot that it stands in. -/
inductive Program.Holds (p : Program) : Slot → Node → Prop
  | declaration {n : Node} : n ∈ p.declarations → p.Holds .declaration n
  | part {slot slot' : Slot} {n n' : Node} : p.Holds slot n → (slot', n') ∈ n.parts →
      p.Holds slot' n'

variable {ts : Array Token}

/-- A node that is there and fits, with all that stands in it. -/
structure Slot.Good (ts : Array Token) (slot : Slot) (n : Node) : Prop where
  takes : slot.takes n = true
  wellShaped : n.WellShaped ts

/-- A node in a slot, with all that stands in it. -/
structure Slot.Filled (ts : Array Token) (slot : Slot) (n : Node) : Prop where
  fits : slot.Fits ts n
  wellShaped : n.WellShaped ts

theorem Slot.Good.filled {slot : Slot} {n : Node} (h : slot.Good ts n) : slot.Filled ts n :=
  ⟨.present h.takes, h.wellShaped⟩

/-- Slots that take the same nodes are filled by the same nodes. -/
theorem Slot.Good.into {slot slot' : Slot} {n : Node} (h : slot.Good ts n)
    (htakes : slot.takes n = true → slot'.takes n = true) : slot'.Good ts n :=
  ⟨htakes h.takes, h.wellShaped⟩

theorem Node.wellShaped {n : Node} (hnames : ∀ t ∈ n.names, t.kind = .ident)
    (hoperator : n.operatorFits = true) (hparts : ∀ q ∈ n.parts, q.1.Filled ts q.2) :
    n.WellShaped ts :=
  .node ⟨hnames, hoperator⟩ (fun q hq => (hparts q hq).fits) fun q hq => (hparts q hq).wellShaped

/-- A node without names of its own. -/
theorem Node.wellShaped_of_parts {n : Node} (hnames : n.names = [])
    (hoperator : n.operatorFits = true) (hparts : ∀ q ∈ n.parts, q.1.Filled ts q.2) :
    n.WellShaped ts := by
  refine Node.wellShaped ?_ hoperator hparts
  rw [hnames]
  exact List.forall_mem_nil _

/-- A node with one name of its own. -/
theorem Node.wellShaped_of_name {n : Node} {name : Token} (hnames : n.names = [name])
    (hkind : name.kind = .ident) (hoperator : n.operatorFits = true)
    (hparts : ∀ q ∈ n.parts, q.1.Filled ts q.2) : n.WellShaped ts := by
  refine Node.wellShaped ?_ hoperator hparts
  rw [hnames]
  exact List.forall_mem_singleton.mpr hkind

/-! ### Parts in a row -/

theorem filled_cons {slot : Slot} {n : Node} {qs : List (Slot × Node)} (h : slot.Filled ts n)
    (hrest : ∀ q ∈ qs, q.1.Filled ts q.2) : ∀ q ∈ (slot, n) :: qs, q.1.Filled ts q.2 :=
  List.forall_mem_cons.mpr ⟨h, hrest⟩

theorem filled_single {slot : Slot} {n : Node} (h : slot.Filled ts n) :
    ∀ q ∈ [(slot, n)], q.1.Filled ts q.2 :=
  List.forall_mem_singleton.mpr h

/-- Statements in a row, as parts of the node with the block. -/
theorem filled_statements {ns : List Node} (h : ∀ n ∈ ns, Slot.statement.Good ts n) :
    ∀ q ∈ ns.map (Slot.statement, ·), q.1.Filled ts q.2 := by
  intro q hq
  obtain ⟨n, hn, rfl⟩ := List.mem_map.mp hq
  exact (h n hn).filled

/-! ### Missing parts -/

/-- A place with a token that is no `else`. -/
structure Place.Clear (i : Place ts) : Prop where
  lt : i.val < ts.size
  avoids : i.Avoids [.elseKw]

namespace Place

variable {i j : Place ts} {kind : TokenKind} {t : Token}

theorem Takes.clear (h : i.Takes kind t j) (hkind : kind ≠ .elseKw) : i.Clear where
  lt := (Array.getElem?_eq_some_iff.mp h.peek?).1
  avoids := h.avoids (by simpa using hkind)

/-- In front of a phrase that does not begin with `else`, no `else` stands if none does behind. -/
theorem Clear.front {e : Ebnf} (hj : j.Clear) (h : Stands e i j) (he : .elseKw ∉ e.first) :
    i.Clear := by
  refine ⟨Nat.lt_of_le_of_lt h.le hj.lt, h.avoids hj.avoids ?_⟩
  intro k hk
  obtain rfl := List.mem_singleton.mp hk
  exact ⟨he, fun _ => hk⟩

end Place

/-- What is in the place of a part that may be missing: the part, or the mark of a failure there. -/
def Slot.OrMissing (ts : Array Token) (slot : Slot) (n : Node) (i j : Place ts) : Prop :=
  slot.Good ts n ∨ i = j ∧ ∃ f, n = .missing f ∧ f = i.failure f.construct

theorem Node.wellShaped_missing (f : ParseFailure) : (Node.missing f).WellShaped ts :=
  Node.wellShaped_of_parts rfl rfl (List.forall_mem_nil _)

/-- A part that may be missing fills a slot where a token stands behind that may stand instead. -/
theorem Slot.OrMissing.filled {slot slot' : Slot} {n : Node} {i j k : Place ts} {kind : TokenKind}
    {t : Token} (h : slot.OrMissing ts n i j)
    (htakes : slot.takes n = true → slot'.takes n = true) (ht : j.Takes kind t k)
    (hinstead : slot'.instead kind = true) : slot'.Filled ts n := by
  rcases h with hgood | ⟨rfl, f, rfl, hf⟩
  · exact (hgood.into htakes).filled
  · have hfound : f.found = t := by
      rw [hf]
      simp [Place.failure, Place.found, ht.peek?]
    have hoffset : f.offset = i.val := by rw [hf]; rfl
    refine ⟨.missing ?_ ?_, Node.wellShaped_missing f⟩
    · rw [hoffset, hfound]
      exact ht.peek?
    · rw [hfound, ht.kind_eq]
      exact hinstead

/-- An alternative that may be missing fills its slot where something else than `else` follows. -/
theorem Slot.OrMissing.filled_alternative {n : Node} {i j : Place ts}
    (h : Slot.alternative.OrMissing ts n i j) (hj : j.Clear) : Slot.alternative.Filled ts n := by
  have htakes := Place.takes_of_lt hj.lt
  refine h.filled id htakes ?_
  have hkind := hj.avoids _ htakes.peek?
  simpa [Slot.instead] using hkind

/-! ### Phrases -/

/-- The slot for a part that may be missing. -/
def OptionalPart.slot : OptionalPart → Slot
  | value => .value
  | alternative => .alternative
  | forInit => .forInit
  | assignment => .forUpdate

/-- What is known of a phrase between two places: nodes fit where they stand, provided that no
    `else` follows a phrase that could go on with one. -/
def Phrase.Shaped (p : Phrase) (i j : Place ts) : Prop :=
  match p with
  | .binary _ n | .unary n | .primary n => Slot.value.Good ts n
  | .arguments ns => ∀ n ∈ ns, Slot.value.Good ts n
  | .argumentList a => ∀ n ∈ a.arguments, Slot.value.Good ts n
  | .call c => (Node.call c).WellShaped ts
  | .names ns => ∀ t ∈ ns, t.kind = .ident
  | .parameterList p => ∀ t ∈ p.names, t.kind = .ident
  | .signature s => ∀ t ∈ s.name :: s.parameters.names, t.kind = .ident
  | .declaration n => Slot.declaration.Good ts n
  | .assignment n => Slot.forUpdate.Good ts n
  | .forInit n => Slot.forInit.Good ts n
  | .alternative n => j.Clear → Slot.alternative.Good ts n
  | .optional part n => (part = .alternative → j.Clear) → part.slot.OrMissing ts n i j
  | .statement n => j.Clear → Slot.statement.Good ts n
  | .statements ns => j.Clear → ∀ n ∈ ns, Slot.statement.Good ts n
  | .block b => ∀ n ∈ b.statements, Slot.statement.Good ts n
  | .caseClause c => Slot.value.Good ts c.value ∧ ∀ n ∈ c.body.statements, Slot.statement.Good ts n
  | .cases cs => ∀ c ∈ cs, Slot.value.Good ts c.value ∧
      ∀ n ∈ c.body.statements, Slot.statement.Good ts n
  | .declarations ns => ∀ n ∈ ns, Slot.declaration.Good ts n

variable {i j : Place ts}

theorem Phrase.shaped_operand {level : Level} {n : Node} :
    (operand level n).Shaped i j ↔ Slot.value.Good ts n := by
  cases level <;> rfl

/-- What fills a slot where it has to be there fills it where it may be missing. -/
theorem Phrase.Shaped.orMissing {p : OptionalPart} {n : Node} (h : (part p n).Shaped i j)
    (hclear : p = .alternative → j.Clear) : p.slot.OrMissing ts n i j := by
  cases p with
  | value => exact Or.inl h
  | alternative => exact Or.inl (h (hclear rfl))
  | forInit => exact Or.inl h
  | assignment => exact Or.inl h

theorem operators_binary {level : Level} {k : TokenKind} (h : k ∈ level.operators) :
    k ∈ binaryOperators := by
  have hlevel : ∀ k ∈ level.operators, k ∈ binaryOperators := by
    cases level <;> decide
  exact hlevel k h

theorem takesStatement_of_declaration {n : Node} (h : Slot.declaration.takes n = true) :
    Slot.statement.takes n = true := by
  cases n <;> first | rfl | cases h

theorem takesForInit_of_forUpdate {n : Node} (h : Slot.forUpdate.takes n = true) :
    Slot.forInit.takes n = true := by
  cases n <;> first | rfl | cases h

theorem takesStatement_of_forUpdate {n : Node} (h : Slot.forUpdate.takes n = true) :
    Slot.statement.takes n = true := by
  cases n <;> first | rfl | cases h

/-- **What is written fits.** -/
theorem Written.shaped {p : Phrase} (h : Written p i j) : p.Shaped i j := by
  induction h with
  | callValue _ ih => exact ⟨rfl, ih⟩
  | literal _ hk =>
    exact ⟨decide_eq_true hk, Node.wellShaped_of_parts rfl rfl (List.forall_mem_nil _)⟩
  | grouped _ _ _ ih => exact ih
  | prefixed _ hk _ ih =>
    exact ⟨rfl, Node.wellShaped_of_parts rfl (decide_eq_true hk) (filled_single ih.filled)⟩
  | primaryUnary _ ih => exact ih
  | operand _ ih => exact Phrase.shaped_operand.mp ih
  | operation _ _ hk _ ih ih' =>
    have hright := filled_single (Phrase.shaped_operand.mp ih').filled
    exact ⟨rfl, Node.wellShaped_of_parts rfl (decide_eq_true (operators_binary hk))
      (filled_cons ih.filled hright)⟩
  | lastArgument _ ih => exact List.forall_mem_singleton.mpr ih
  | moreArguments _ _ _ ih ih' => exact List.forall_mem_cons.mpr ⟨ih, ih'⟩
  | noArguments _ _ => exact List.forall_mem_nil _
  | argumentList _ _ _ ih => exact ih
  | call hname _ ih =>
    refine Node.wellShaped_of_name rfl hname.kind_eq rfl ?_
    intro q hq
    obtain ⟨n, hn, rfl⟩ := List.mem_map.mp hq
    exact (ih n hn).filled
  | lastName hname => exact List.forall_mem_singleton.mpr hname.kind_eq
  | moreNames hname _ _ ih => exact List.forall_mem_cons.mpr ⟨hname.kind_eq, ih⟩
  | noParameters _ _ => exact List.forall_mem_nil _
  | parameterList _ _ _ ih => exact ih
  | signature hname _ ih => exact List.forall_mem_cons.mpr ⟨hname.kind_eq, ih⟩
  | functionDef _ _ _ ihs ihb => exact ⟨rfl, Node.wellShaped ihs rfl (filled_statements ihb)⟩
  | procedureDef _ _ _ ihs ihb => exact ⟨rfl, Node.wellShaped ihs rfl (filled_statements ihb)⟩
  | varDecl _ hname _ =>
    exact ⟨rfl, Node.wellShaped_of_name rfl hname.kind_eq rfl
      (List.forall_mem_nil _)⟩
  | varInit _ hname _ _ _ ih =>
    exact ⟨rfl, Node.wellShaped_of_name rfl hname.kind_eq rfl
      (filled_single ih.filled)⟩
  | assignment hname _ _ ih =>
    exact ⟨rfl, Node.wellShaped_of_name rfl hname.kind_eq rfl
      (filled_single ih.filled)⟩
  | forDeclaration _ hname _ _ ih =>
    exact ⟨rfl, Node.wellShaped_of_name rfl hname.kind_eq rfl
      (filled_single ih.filled)⟩
  | forAssignment _ ih => exact ih.into takesForInit_of_forUpdate
  | elseIf _ _ _ _ _ _ _ ihn ihb iha =>
    intro hclear
    have halternative := (iha fun _ => hclear).filled_alternative hclear
    exact ⟨rfl, Node.wellShaped_of_parts rfl rfl
      (filled_cons ihn.filled (filled_cons halternative (filled_statements ihb)))⟩
  | elseClause _ _ ih =>
    exact fun _ => ⟨rfl, Node.wellShaped_of_parts rfl rfl (filled_statements ih)⟩
  | absent hf => exact fun _ => Or.inr ⟨rfl, _, rfl, hf⟩
  | present _ ih => exact ih.orMissing
  | declarationStatement _ ih => exact fun _ => ih.into takesStatement_of_declaration
  | assignmentStatement _ _ ih => exact fun _ => ih.into takesStatement_of_forUpdate
  | callStatement _ _ ih => exact fun _ => ⟨rfl, ih⟩
  | returnStmt _ _ ht ih =>
    intro _
    have hvalue : Slot.returnValue.Filled ts _ := (ih nofun).filled id ht rfl
    exact ⟨rfl, Node.wellShaped_of_parts rfl rfl (filled_single hvalue)⟩
  | ifStmt _ _ _ _ _ _ ihn ihb iha =>
    intro hclear
    have halternative := (iha fun _ => hclear).filled_alternative hclear
    exact ⟨rfl, Node.wellShaped_of_parts rfl rfl
      (filled_cons ihn.filled (filled_cons halternative (filled_statements ihb)))⟩
  | forLoop _ _ _ ht₂ _ ht₃ _ ht₄ _ ihi iht ihu ihb =>
    -- behind each clause stands the token that tells that it is over
    intro _
    have hinit : Slot.forInit.Filled ts _ := (ihi nofun).filled id ht₂ rfl
    have htest : Slot.forTest.Filled ts _ := (iht nofun).filled id ht₃ rfl
    have hupdate : Slot.forUpdate.Filled ts _ := (ihu nofun).filled id ht₄ rfl
    exact ⟨rfl, Node.wellShaped_of_parts rfl rfl
      (filled_cons hinit (filled_cons htest (filled_cons hupdate (filled_statements ihb))))⟩
  | whileLoop _ _ _ _ _ ihn ihb =>
    exact fun _ => ⟨rfl, Node.wellShaped_of_parts rfl rfl
      (filled_cons ihn.filled (filled_statements ihb))⟩
  | switchStmt _ _ _ _ _ _ _ ihn ihc =>
    intro _
    refine ⟨rfl, Node.wellShaped_of_parts rfl rfl (filled_cons ihn.filled ?_)⟩
    intro q hq
    obtain ⟨c, hc, hq⟩ := List.mem_flatMap.mp hq
    obtain ⟨hvalue, hbody⟩ := ihc c hc
    exact filled_cons hvalue.filled (filled_statements hbody) q hq
  | blockStatement _ ih =>
    exact fun _ => ⟨rfl, Node.wellShaped_of_parts rfl rfl (filled_statements ih)⟩
  | noStatements => exact fun _ => List.forall_mem_nil _
  | moreStatements _ hrest ih ih' =>
    intro hclear
    have hstands : Stands (.star (.ref .statement)) _ _ := hrest.stands
    exact List.forall_mem_cons.mpr ⟨ih (hclear.front hstands (by decide)), ih' hclear⟩
  | block _ _ ht ih => exact ih (ht.clear (by decide))
  | caseClause _ _ _ ihn ihb => exact ⟨ihn, ihb⟩
  | noCases => exact List.forall_mem_nil _
  | moreCases _ _ ih ih' => exact List.forall_mem_cons.mpr ⟨ih, ih'⟩
  | noDeclarations => exact List.forall_mem_nil _
  | moreDeclarations _ _ ih ih' => exact List.forall_mem_cons.mpr ⟨ih, ih'⟩

/-! ### Programs -/

/-- **Every node of a program that parses fits the slot it stands in**, and its names and its
    operator are tokens of the kinds for that.  Where a part is missing, the failure it keeps
    shows the token that stands instead. -/
theorem holds_fits {p : Program} (hp : parse ts = .ok p) {slot : Slot} {n : Node}
    (h : p.Holds slot n) : slot.Fits ts n ∧ n.TokensFit := by
  obtain ⟨k, eof, j, hwritten, -, -, -⟩ := exists_written_of_parse hp
  have hfilled : slot.Filled ts n := by
    induction h with
    | declaration hn => exact (hwritten.shaped _ hn).filled
    | part _ hpart ih =>
      cases ih.wellShaped with
      | node _ hfits hparts => exact ⟨hfits _ hpart, hparts _ hpart⟩
  cases hfilled.wellShaped with
  | node htokens _ _ => exact ⟨hfilled.fits, htokens⟩

/-- The mark of a missing return value shows the semicolon that stands instead. -/
theorem holds_fits_of_return :
    ∃ p f, parse (tokenize "fn f() \x7b return; \x7d").tokens = .ok p ∧
      p.Holds .returnValue (.missing f) ∧
      (tokenize "fn f() \x7b return; \x7d").tokens[f.offset]? = some f.found ∧
      f.found.kind = .semi := by
  have hread : (parse (tokenize "fn f() \x7b return; \x7d").tokens).toOption.map (fun p =>
      ((p.declarations.flatMap Node.parts).flatMap fun q => q.2.parts).map fun q =>
        (q.1, q.2.isMissing)) = some [(.returnValue, true)] := by
    decide +kernel
  obtain ⟨p, h, hparts⟩ := exists_of_map_parse hread
  obtain ⟨q, rest, hq, hslot, -⟩ := List.map_eq_cons_iff.mp hparts
  obtain ⟨slot, n⟩ := q
  obtain ⟨rfl, hmissing⟩ := Prod.mk.inj hslot
  have hmem := List.mem_of_mem_head? (Option.mem_def.mpr (congrArg List.head? hq))
  obtain ⟨⟨slot', n'⟩, hn', hn⟩ := List.mem_flatMap.mp hmem
  obtain ⟨d, hd, hd'⟩ := List.mem_flatMap.mp hn'
  have hholds : p.Holds .returnValue n := .part (.part (.declaration hd) hd') hn
  obtain ⟨hfits, -⟩ := holds_fits h hholds
  obtain ⟨f, rfl⟩ : ∃ f, n = .missing f := by
    cases n with
    | missing f => exact ⟨f, rfl⟩
    | _ => cases hmissing
  cases hfits with
  | present htakes => cases htakes
  | missing hfound hkind => exact ⟨p, f, h, hholds, hfound, of_decide_eq_true hkind⟩

end TarnLang
