/-
  TarnLang/Proofs/Grammar/Expectation.lean
  ========================================
  **What could have come next.**  A failure names a construct.  `Ebnf.named?` says which
  phrases that name stands for, and `ParseFailure.Expects` that the failure is fair: what was
  read up to it, followed by any phrase of the construct, is the beginning of some phrase of
  the right-hand side that was to be read.

  A beginning can be completed because every nonterminal derives something.  That is checked
  with a rank: the shortest phrases of a nonterminal hold only nonterminals of smaller ranks.
-/
import TarnLang.Proofs.Grammar.Derivation

namespace TarnLang

/-! ### Right-hand sides that derive something -/

mutual

/-- Whether a right-hand side derives something, when the nonterminals in `ready` do. -/
def Ebnf.productive (ready : Nonterminal → Bool) : Ebnf → Bool
  | .kind _ => true
  | .ref n => ready n
  | .seq es => Ebnf.allProductive ready es
  | .alt es => Ebnf.anyProductive ready es
  | .opt _ => true
  | .star _ => true

def Ebnf.allProductive (ready : Nonterminal → Bool) : List Ebnf → Bool
  | [] => true
  | e :: es => e.productive ready && Ebnf.allProductive ready es

def Ebnf.anyProductive (ready : Nonterminal → Bool) : List Ebnf → Bool
  | [] => false
  | e :: es => e.productive ready || Ebnf.anyProductive ready es

end

/-- Rank of a nonterminal.  Its shortest phrases hold only nonterminals of smaller ranks. -/
def Nonterminal.rank : Nonterminal → Nat
  | parameterDef | parameterPass | varDecl | returnStmt | block | primary => 0
  | signature | call | unary | global | statement | alternative | forStmt => 1
  | functionDef | procedureDef | multiplicative => 2
  | additive => 3
  | comparison => 4
  | conjunction => 5
  | disjunction => 6
  | expression => 7
  | varInit | assignment | ifStmt | forInit | whileStmt | switchStmt | caseClause => 8

theorem Nonterminal.productive_rule (n : Nonterminal) :
    n.rule.productive (fun m => m.rank < n.rank) = true := by
  cases n <;> decide +kernel

mutual

theorem Ebnf.exists_derives_of_productive {ready : Nonterminal → Bool}
    (hready : ∀ n, ready n = true → ∃ w, Derives (.ref n) w) (e : Ebnf)
    (h : e.productive ready = true) : ∃ w, Derives e w := by
  cases e with
  | kind k => exact ⟨[k], .kind⟩
  | ref n =>
    rw [Ebnf.productive] at h
    exact hready n h
  | seq es =>
    rw [Ebnf.productive] at h
    exact exists_derives_seq hready es h
  | alt es =>
    rw [Ebnf.productive] at h
    exact exists_derives_alt hready es h
  | opt e => exact ⟨[], .absent⟩
  | star e => exact ⟨[], .done⟩

theorem exists_derives_seq {ready : Nonterminal → Bool}
    (hready : ∀ n, ready n = true → ∃ w, Derives (.ref n) w) (es : List Ebnf)
    (h : Ebnf.allProductive ready es = true) : ∃ w, Derives (.seq es) w := by
  cases es with
  | nil => exact ⟨[], .nil⟩
  | cons e es =>
    simp only [Ebnf.allProductive, Bool.and_eq_true] at h
    obtain ⟨u, hu⟩ := Ebnf.exists_derives_of_productive hready e h.1
    obtain ⟨v, hv⟩ := exists_derives_seq hready es h.2
    exact ⟨u ++ v, .cons hu hv⟩

theorem exists_derives_alt {ready : Nonterminal → Bool}
    (hready : ∀ n, ready n = true → ∃ w, Derives (.ref n) w) (es : List Ebnf)
    (h : Ebnf.anyProductive ready es = true) : ∃ w, Derives (.alt es) w := by
  cases es with
  | nil => cases h
  | cons e es =>
    simp only [Ebnf.anyProductive, Bool.or_eq_true] at h
    rcases h with h | h
    · obtain ⟨w, hw⟩ := Ebnf.exists_derives_of_productive hready e h
      exact ⟨w, .alt (List.mem_cons_self ..) hw⟩
    · obtain ⟨w, hw⟩ := exists_derives_alt hready es h
      cases hw with
      | alt hmem hw => exact ⟨w, .alt (List.mem_cons_of_mem e hmem) hw⟩

end

/-- Every nonterminal derives something. -/
theorem Nonterminal.exists_derives (n : Nonterminal) : ∃ w, Derives (.ref n) w := by
  induction hrank : n.rank using Nat.strongRecOn generalizing n with
  | ind rank ih =>
    have hready : ∀ m : Nonterminal, decide (m.rank < n.rank) = true → ∃ w, Derives (.ref m) w := by
      intro m hm
      have hlt := of_decide_eq_true hm
      rw [hrank] at hlt
      exact ih m.rank hlt m rfl
    obtain ⟨w, hw⟩ := Ebnf.exists_derives_of_productive hready n.rule n.productive_rule
    exact ⟨w, .ref hw⟩

/-- Whether a right-hand side derives something: no choice in it is empty. -/
def Ebnf.inhabited (e : Ebnf) : Bool := e.productive fun _ => true

theorem Ebnf.exists_derives {e : Ebnf} (h : e.inhabited = true) : ∃ w, Derives e w :=
  exists_derives_of_productive (fun n _ => n.exists_derives) e h

/-! ### Constructs and their names -/

/-- Names of constructs that are larger than a token. -/
def largeConstructs : List (String × Ebnf) :=
  [("an expression", .ref .expression), ("a statement", .ref .statement),
    ("a declaration", .ref .global)]

/-- Names of tokens.  The end of file is no part of any phrase, so its name is not among them. -/
def tokenConstructs : List (String × Ebnf) :=
  (TokenKind.all.filter (· ≠ .eof)).map fun k => (k.displayName, .kind k)

/-- What the name of a construct stands for. -/
def Ebnf.named? (name : String) : Option Ebnf := (largeConstructs ++ tokenConstructs).lookup name

theorem Ebnf.named?_displayName {k : TokenKind} (hk : k ≠ .eof) :
    Ebnf.named? k.displayName = some (.kind k) := by
  cases k with
  | eof => exact absurd rfl hk
  | _ => rfl

theorem Ebnf.inhabited_of_named? {name : String} {e : Ebnf} (h : Ebnf.named? name = some e) :
    e.inhabited = true := by
  obtain ⟨front, rest, hlist, -⟩ := List.lookup_eq_some_iff.mp h
  have hall : ∀ p ∈ largeConstructs ++ tokenConstructs, p.2.inhabited = true := by
    decide +kernel
  apply hall (name, e)
  rw [hlist]
  exact List.mem_append_right front (List.mem_cons_self ..)

/-! ### Fair failures -/

/-- What was read, followed by any phrase of `next`, is the beginning of a phrase of `e`. -/
def GoesOn (e : Ebnf) (read : List TokenKind) (next : Ebnf) : Prop :=
  ∀ w, Derives next w → ∃ v, Derives e (read ++ w ++ v)

/-- A failure to read a phrase of `e` from a place on is fair: it reports what stands at a place
    further on, and a phrase of `e` could have gone on there with the construct it names. -/
def ParseFailure.Expects {ts : Array Token} (f : ParseFailure) (e : Ebnf) (i : Place ts) : Prop :=
  ∃ (j : Place ts) (read : List TokenKind) (next : Ebnf), f = j.failure f.construct ∧
    i.kinds = read ++ j.kinds ∧ Ebnf.named? f.construct = some next ∧ GoesOn e read next

namespace GoesOn

variable {e next : Ebnf} {es : List Ebnf} {read : List TokenKind}

/-- Every phrase can go on with itself. -/
theorem self : GoesOn e [] e := by
  intro w hw
  refine ⟨[], ?_⟩
  rw [List.nil_append, List.append_nil]
  exact hw

theorem mono {e' : Ebnf} (h : GoesOn e read next) (he : ∀ w, Derives e w → Derives e' w) :
    GoesOn e' read next := by
  intro w hw
  obtain ⟨v, hv⟩ := h w hw
  exact ⟨v, he _ hv⟩

/-- The parts behind can be completed. -/
theorem cons (h : GoesOn e read next) (hes : (Ebnf.seq es).inhabited = true) :
    GoesOn (.seq (e :: es)) read next := by
  intro w hw
  obtain ⟨v, hv⟩ := h w hw
  obtain ⟨v', hv'⟩ := Ebnf.exists_derives hes
  refine ⟨v ++ v', ?_⟩
  rw [← List.append_assoc]
  exact .cons hv hv'

/-- A part may stand in front. -/
theorem behind {u : List TokenKind} (hu : Derives e u) (h : GoesOn (.seq es) read next) :
    GoesOn (.seq (e :: es)) (u ++ read) next := by
  intro w hw
  obtain ⟨v, hv⟩ := h w hw
  refine ⟨v, ?_⟩
  rw [List.append_assoc, List.append_assoc, ← List.append_assoc read]
  exact .cons hu hv

theorem more {u : List TokenKind} (hu : Derives e u) (h : GoesOn (.star e) read next) :
    GoesOn (.star e) (u ++ read) next := by
  intro w hw
  obtain ⟨v, hv⟩ := h w hw
  refine ⟨v, ?_⟩
  rw [List.append_assoc, List.append_assoc, ← List.append_assoc read]
  exact .more hu hv

/-- What goes on with something goes on with nothing more than that. -/
theorem beginning (h : GoesOn e read next) (hnext : next.inhabited = true) :
    ∃ v, Derives e (read ++ v) := by
  obtain ⟨w, hw⟩ := Ebnf.exists_derives hnext
  obtain ⟨v, hv⟩ := h w hw
  refine ⟨w ++ v, ?_⟩
  rw [← List.append_assoc]
  exact hv

end GoesOn

namespace ParseFailure.Expects

variable {ts : Array Token} {i j : Place ts} {f : ParseFailure} {e : Ebnf} {es : List Ebnf}

theorem mono {e' : Ebnf} (h : f.Expects e i) (he : ∀ w, Derives e w → Derives e' w) :
    f.Expects e' i := by
  obtain ⟨j, read, next, hf, hread, hnamed, hgoes⟩ := h
  exact ⟨j, read, next, hf, hread, hnamed, hgoes.mono he⟩

/-- A phrase that is named where it should start. -/
theorem self {construct : String} (hnamed : Ebnf.named? construct = some e) :
    (i.failure construct).Expects e i :=
  ⟨i, [], e, rfl, rfl, hnamed, .self⟩

theorem cons (h : f.Expects e i) (hes : (Ebnf.seq es).inhabited = true) :
    f.Expects (.seq (e :: es)) i := by
  obtain ⟨j, read, next, hf, hread, hnamed, hgoes⟩ := h
  exact ⟨j, read, next, hf, hread, hnamed, hgoes.cons hes⟩

/-- A failure behind the first part. -/
theorem behind (he : Stands e i j) (h : f.Expects (.seq es) j) :
    f.Expects (.seq (e :: es)) i := by
  obtain ⟨u, hu, hi⟩ := he
  obtain ⟨k, read, next, hf, hread, hnamed, hgoes⟩ := h
  refine ⟨k, u ++ read, next, hf, ?_, hnamed, hgoes.behind hu⟩
  rw [hi, hread, List.append_assoc]

/-- A failure behind a first item. -/
theorem more (he : Stands e i j) (h : f.Expects (.star e) j) : f.Expects (.star e) i := by
  obtain ⟨u, hu, hi⟩ := he
  obtain ⟨k, read, next, hf, hread, hnamed, hgoes⟩ := h
  refine ⟨k, u ++ read, next, hf, ?_, hnamed, hgoes.more hu⟩
  rw [hi, hread, List.append_assoc]

theorem ref {n : Nonterminal} (h : f.Expects n.rule i) : f.Expects (.ref n) i :=
  h.mono fun _ hw => .ref hw

theorem alt (h : f.Expects e i) (he : e ∈ es) : f.Expects (.alt es) i :=
  h.mono fun _ hw => .alt he hw

theorem present (h : f.Expects e i) : f.Expects (.opt e) i := h.mono fun _ hw => .present hw

/-- A failure in an item is one in a repetition that starts with it. -/
theorem item (h : f.Expects e i) : f.Expects (.star e) i := by
  apply h.mono
  intro w hw
  rw [← List.append_nil w]
  exact .more hw .done

/-- A failure behind an item of a list and its comma. -/
theorem commaList {k : Place ts} {t : Token} (he : Stands e i j) (ht : j.Takes .comma t k)
    (h : f.Expects (.commaList e) k) : f.Expects (.commaList e) i := by
  obtain ⟨u, hu, hi⟩ := he
  obtain ⟨l, read, next, hf, hread, hnamed, hgoes⟩ := h
  refine ⟨l, u ++ .comma :: read, next, hf, ?_, hnamed, ?_⟩
  · rw [hi, ht.kinds_eq, hread, List.append_assoc]
    rfl
  · intro w hw
    obtain ⟨v, hv⟩ := hgoes w hw
    refine ⟨v, ?_⟩
    rw [List.append_assoc, List.append_assoc, List.cons_append, ← List.append_assoc read]
    exact hu.commaList_cons hv

end ParseFailure.Expects

end TarnLang
