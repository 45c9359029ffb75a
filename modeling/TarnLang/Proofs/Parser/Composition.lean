/-
  TarnLang/Proofs/Parser/Composition.lean
  =======================================
  **Parsers put together from combinators.**  A `Composition` says how a parser is put
  together: tokens and the rules of the grammar stand at its leaves, combinators above them, and
  `Composition.parser` is what it stands for.

  Not every run of such a parser comes to an end, and whether it does cannot be told from the
  parser as a function.  `Composition.Ends` follows the run over the composition: a part has to
  end wherever it is tried, and a loop may not go round for ever.  A loop goes round as its own
  test has it, and the three loops have three different tests.

  A run that ends stays in the stream and does not go back, whatever it is put together from.
-/
import TarnLang.Lexer
import TarnLang.Proofs.Grammar.Recursion
import Mathlib.Logic.Relation

namespace TarnLang

open TarnLang.Parser

variable {α β γ : Type} {ts : Array Token} {i j k : Place ts}

/-! ### Loops -/

namespace Parser

/-- `many` goes round again behind an item that ends elsewhere than it starts. -/
def ManyRound (item : Parser ts α) (i k : Place ts) : Prop := ∃ x, item i = .ok (x, k) ∧ k ≠ i

/-- `manyUntil` goes round again behind an item that ends later than it starts. -/
def UntilRound (item : Parser ts α) (i k : Place ts) : Prop := ∃ x, item i = .ok (x, k) ∧ i < k

/-- `separated` goes round again behind a separator. -/
def SeparatedRound (separator : Parser ts β) (item : Parser ts α) (i k : Place ts) : Prop :=
  ∃ x, separatedTurn separator item i = .ok (.more x k)

/-- An item that does not go back ends elsewhere just where it ends later. -/
theorem manyRound_iff_untilRound {item : Parser ts α} (h : ∀ {x k}, item i = .ok (x, k) → i ≤ k) :
    ManyRound item i k ↔ UntilRound item i k := by
  constructor
  · rintro ⟨x, hx, hne⟩
    exact ⟨x, hx, Nat.lt_of_le_of_ne (h hx) (Fin.val_ne_of_ne hne.symm)⟩
  · rintro ⟨x, hx, hlt⟩
    exact ⟨x, hx, fun heq => Nat.ne_of_gt hlt (congrArg Fin.val heq)⟩

/-- The loop of `many` may as well stop where an item ends at the place where it starts. -/
theorem many_eq {item : Parser ts α} (h : ∀ {x k}, item i = .ok (x, k) → i ≤ k) :
    many item i =
      match item i with
      | .ok (x, k) =>
        if k = i then .ok ([], i) else (many item k).map fun (xs, l) => (x :: xs, l)
      | .error _ => .ok ([], i) := by
  rw [many, manyFrom]
  cases hitem : item i with
  | error f => rfl
  | ok r =>
    obtain ⟨x, k⟩ := r
    by_cases hki : k = i
    · subst hki
      simp only [Fin.lt_irrefl, if_false, if_true]
    · obtain ⟨-, -, hlt⟩ := (manyRound_iff_untilRound h).mp ⟨x, hitem, hki⟩
      simp only [if_pos hlt, if_neg hki]
      rfl

/-- A loop comes to an end: what it does in each round does, and after each round so does the
    rest of the loop. -/
inductive LoopEnds (Body : Place ts → Prop) (Round : Place ts → Place ts → Prop) :
    Place ts → Prop
  | intro {i : Place ts} (body : Body i) (next : ∀ k, Round i k → LoopEnds Body Round k) :
      LoopEnds Body Round i

namespace LoopEnds

variable {Body : Place ts → Prop} {Round : Place ts → Place ts → Prop}

theorem body (h : LoopEnds Body Round i) : Body i := by
  obtain ⟨hbody, -⟩ := h
  exact hbody

theorem next (h : LoopEnds Body Round i) (hround : Round i k) : LoopEnds Body Round k := by
  obtain ⟨-, hnext⟩ := h
  exact hnext k hround

/-- A loop that gets back to where it was does not end. -/
theorem irrefl (h : LoopEnds Body Round i) : ¬ Round i i := by
  induction h with
  | intro _ _ ih =>
    intro hround
    exact ih _ hround hround

/-- A loop ends if each round that it comes to leads to a later place. -/
theorem of_lt (hbody : ∀ j, Body j)
    (hround : ∀ j k, Relation.ReflTransGen Round i j → Round j k → j < k) :
    LoopEnds Body Round i := by
  induction hleft : i.left using Nat.strongRecOn generalizing i with
  | ind left ih =>
    subst hleft
    refine .intro (hbody i) fun k hk => ?_
    have hlt := hround i k .refl hk
    exact ih k.left (Place.left_lt_left hlt) (fun j l hj => hround j l (.head hk hj)) rfl

end LoopEnds

end Parser

/-! ### Compositions -/

/-- How a parser is put together. -/
inductive Composition : Type → Type 1
  | pure {α : Type} (x : α) : Composition α
  | token (kind : TokenKind) : Composition Token
  | rule (k : Nonterminal) : Composition k.Value
  | program : Composition Program
  | map {α β : Type} (g : α → β) (p : Composition α) : Composition β
  | both {α β : Type} (p : Composition α) (q : Composition β) : Composition (α × β)
  | any {α : Type} {n : Nat} (ps : Fin n → Composition α) : Composition α
  | optional {α : Type} [Absent α] (p : Composition α) : Composition α
  | named {α : Type} (construct : String) (p : Composition α) : Composition α
  | spanned {α : Type} (p : Composition α) : Composition (α × Span)
  | surrounded {α β γ : Type} (opening : Composition α) (closing : Composition β)
      (inner : Composition γ) : Composition (α × γ × β)
  | many {α : Type} (item : Composition α) : Composition (List α)
  | manyUntil {α β : Type} (item : Composition α) (terminator : Composition β) :
      Composition (List α × β)
  | separated {α β : Type} (separator : Composition β) (item : Composition α) :
      Composition (List α)

namespace Composition

/-- Compositions one after another. -/
def all : List (Composition α) → Composition (List α)
  | [] => .pure []
  | p :: ps => .map (fun (x, xs) => x :: xs) (.both p (all ps))

/-- The parser that a composition stands for. -/
def parser (ts : Array Token) : {α : Type} → Composition α → Parser ts α
  | _, .pure x => Pure.pure x
  | _, .token kind => Parser.token kind
  | _, .rule k => (Grammar.table ts).run k
  | _, .program => Grammar.program ts
  | _, .map g p => g <$> p.parser ts
  | _, .both p q => do
    let x ← p.parser ts
    let y ← q.parser ts
    Pure.pure (x, y)
  | _, .any ps => Parser.any (List.ofFn fun k => (ps k).parser ts)
  | _, @optional _ _ p => Parser.optional (p.parser ts)
  | _, .named construct p => Parser.named construct (p.parser ts)
  | _, .spanned p => Parser.spanned (p.parser ts)
  | _, .surrounded opening closing inner =>
    Parser.surrounded (opening.parser ts) (closing.parser ts) (inner.parser ts)
  | _, .many item => Parser.many (item.parser ts)
  | _, .manyUntil item terminator => Parser.manyUntil (item.parser ts) (terminator.parser ts)
  | _, .separated separator item => Parser.separated (separator.parser ts) (item.parser ts)

theorem parser_all (ps : List (Composition α)) :
    (all ps).parser ts = Parser.all (ps.map fun p => p.parser ts) := by
  induction ps with
  | nil => rfl
  | cons p ps ih =>
    funext i
    simp only [all, parser, ih, List.map_cons, Parser.all, Functor.map, bind, Parser.bind]
    cases p.parser ts i with
    | error f => rfl
    | ok r =>
      simp only
      cases Parser.all (ps.map fun p => p.parser ts) r.2 <;> rfl

/-- The run of a composition from a place comes to an end.  Rules of the grammar always do. -/
def Ends (ts : Array Token) : {α : Type} → Composition α → Place ts → Prop
  | _, .pure _, _ => True
  | _, .token _, _ => True
  | _, .rule _, _ => True
  | _, .program, _ => True
  | _, .map _ p, i => p.Ends ts i
  | _, .both p q, i => p.Ends ts i ∧ ∀ x j, p.parser ts i = .ok (x, j) → q.Ends ts j
  | _, .any ps, i => ∀ k, (∀ l < k, ∃ f, (ps l).parser ts i = .error f) → (ps k).Ends ts i
  | _, @optional _ _ p, i => p.Ends ts i
  | _, .named _ p, i => p.Ends ts i
  | _, .spanned p, i => p.Ends ts i
  | _, .surrounded opening closing inner, i =>
    opening.Ends ts i ∧ ∀ a j, opening.parser ts i = .ok (a, j) →
      inner.Ends ts j ∧ ∀ x k, inner.parser ts j = .ok (x, k) → closing.Ends ts k
  | _, .many item, i => LoopEnds (item.Ends ts) (ManyRound (item.parser ts)) i
  | _, .manyUntil item terminator, i =>
    LoopEnds (fun j => item.Ends ts j ∧ (Stops (item.parser ts) j → terminator.Ends ts j))
      (UntilRound (item.parser ts)) i
  | _, .separated separator item, i =>
    LoopEnds (fun j => item.Ends ts j ∧ ∀ x k, item.parser ts j = .ok (x, k) → separator.Ends ts k)
      (SeparatedRound (separator.parser ts) (item.parser ts)) i

/-! ### No run goes back -/

variable {item : Composition α} {separator : Composition β} {terminator : Composition γ}

theorem onward_program : (Grammar.program ts).Onward :=
  .withSpan (.bind (.manyUntil ((Grammar.table ts).onward .global) (.token .eof)) fun _ => .pure _)

theorem onwardFrom_any {n : Nat} {ps : Fin n → Composition α}
    (h : ∀ k, (∀ l < k, ∃ f, (ps l).parser ts i = .error f) → ((ps k).parser ts).OnwardFrom i) :
    ((any ps).parser ts).OnwardFrom i := by
  apply OnwardFrom.any
  intro before p after hps hbefore
  have hlength : before.length < n := by
    have := congrArg List.length hps
    simp only [List.length_ofFn, List.length_append, List.length_cons] at this
    omega
  have hget : ∀ (l : Nat) (hl : l < n), (before ++ p :: after)[l]? = some ((ps ⟨l, hl⟩).parser ts) := by
    intro l hl
    rw [← hps, List.getElem?_ofFn, dif_pos hl]
  have hp := hget before.length hlength
  rw [List.getElem?_append_right (Nat.le_refl _), Nat.sub_self, List.getElem?_cons_zero] at hp
  obtain rfl := Option.some.inj hp
  apply h
  intro l hl
  have hl : l.val < before.length := hl
  have hmem := hget l.val l.isLt
  rw [List.getElem?_append_left hl] at hmem
  exact hbefore _ (List.mem_of_getElem? hmem)

theorem onwardFrom_manyUntil (hitem : ∀ j, item.Ends ts j → (item.parser ts).OnwardFrom j)
    (hterminator : ∀ j, terminator.Ends ts j → (terminator.parser ts).OnwardFrom j)
    (h : (manyUntil item terminator).Ends ts i) :
    ((manyUntil item terminator).parser ts).OnwardFrom i := by
  induction h with
  | intro body _ ih =>
    obtain ⟨hends, hlast⟩ := body
    apply OnwardFrom.manyUntil (hitem _ hends)
    · intro x k hx hlt
      exact ih k ⟨x, hx, hlt⟩
    · intro hstop
      exact hterminator _ (hlast hstop)

/-- A round of a separated list leads to a later place, since it does not lead back, and the loop
    would not end if it stood still. -/
theorem lt_of_separatedRound (hitem : ∀ j, item.Ends ts j → (item.parser ts).OnwardFrom j)
    (hseparator : ∀ j, separator.Ends ts j → (separator.parser ts).OnwardFrom j)
    (h : (separated separator item).Ends ts i)
    (hround : SeparatedRound (separator.parser ts) (item.parser ts) i k) : i < k := by
  obtain ⟨hends, hbehind⟩ := LoopEnds.body h
  obtain ⟨x, hturn⟩ := hround
  obtain ⟨j, y, hx, hy⟩ := separatedTurn_more.mp hturn
  have hle : i ≤ k :=
    Fin.le_trans ((hitem i hends).le hx) ((hseparator j (hbehind x j hx)).le hy)
  have hne : i ≠ k := by
    rintro rfl
    exact LoopEnds.irrefl h ⟨x, hturn⟩
  exact Nat.lt_of_le_of_ne hle (Fin.val_ne_of_ne hne)

theorem onwardFrom_separated (hitem : ∀ j, item.Ends ts j → (item.parser ts).OnwardFrom j)
    (hseparator : ∀ j, separator.Ends ts j → (separator.parser ts).OnwardFrom j)
    (h : (separated separator item).Ends ts i) :
    ((separated separator item).parser ts).OnwardFrom i := by
  induction h with
  | intro body next ih =>
    apply OnwardFrom.separated (hitem _ body.1)
    intro x k hturn
    exact ⟨lt_of_separatedRound hitem hseparator (.intro body next) ⟨x, hturn⟩, ih k ⟨x, hturn⟩⟩

/-- A run that ends does not go back, be it to succeed or to fail: by induction on how the parser
    is put together. -/
theorem onwardFrom {p : Composition α} (h : p.Ends ts i) : (p.parser ts).OnwardFrom i := by
  induction p generalizing i with
  | pure x => exact .pure x i
  | token kind => exact .token kind i
  | rule k => exact ((Grammar.table ts).onward k).at i
  | program => exact onward_program.at i
  | map g p ih => exact (ih h).bind fun x j _ => .pure (g x) j
  | both p q ihp ihq =>
    obtain ⟨hp, hq⟩ := h
    exact (ihp hp).bind fun x j hx => (ihq (hq x j hx)).bind fun y k _ => .pure (x, y) k
  | any ps ih => exact onwardFrom_any fun k hk => ih k (h k hk)
  | optional p ih => exact (ih h).optional
  | named construct p ih => exact (ih h).named construct
  | spanned p ih => exact (ih h).spanned
  | surrounded opening closing inner ihopening ihclosing ihinner =>
    obtain ⟨hopening, hinner⟩ := h
    refine (ihopening hopening).bind fun a j ha => ?_
    obtain ⟨hinner, hclosing⟩ := hinner a j ha
    refine (ihinner hinner).bind fun x k hx => ?_
    exact (ihclosing (hclosing x k hx)).bind fun b l _ => .pure (a, x, b) l
  | many item => exact .many _ i
  | manyUntil item terminator ihitem ihterminator =>
    exact onwardFrom_manyUntil (fun _ => ihitem) (fun _ => ihterminator) h
  | separated separator item ihseparator ihitem =>
    exact onwardFrom_separated (fun _ => ihitem) (fun _ => ihseparator) h

/-! ### The tests of the loops -/

theorem manyRound_iff {p : Composition α} (h : p.Ends ts i) :
    ManyRound (p.parser ts) i k ↔ UntilRound (p.parser ts) i k :=
  manyRound_iff_untilRound (onwardFrom h).le

theorem ends_separated_token (kind : TokenKind) (hitem : ∀ j, item.Ends ts j) (i : Place ts) :
    (separated (.token kind) item).Ends ts i := by
  refine .of_lt (fun j => ⟨hitem j, fun _ _ _ => trivial⟩) fun j k _ hround => ?_
  obtain ⟨x, hturn⟩ := hround
  obtain ⟨l, y, hx, hy⟩ := separatedTurn_more.mp hturn
  exact Fin.lt_of_le_of_lt ((onwardFrom (hitem j)).le hx) (token_ok.mp hy).lt

end Composition

/-- **Parsers put together from combinators stay in the stream.**  Where a run ends, it stands no
    earlier than where it started.  Where it fails, its failure is of a place in between there
    and the end of the stream, and tells what is found there.  So the two ways to see that
    nothing was read, by offsets and by places, are right, and those of the loops agree. -/
theorem composition_stays_in_stream (p : Composition α) (ts : Array Token) (i : Place ts)
    (h : p.Ends ts i) :
    (∀ x j, p.parser ts i = .ok (x, j) → i.val ≤ j.val ∧ j.val ≤ ts.size) ∧
    (∀ f, p.parser ts i = .error f →
      i.val ≤ f.offset ∧ f.offset ≤ ts.size ∧
      f.found = (ts[f.offset]?.or ts.back?).getD Token.emptyEof ∧
      -- the test of `optional` and `named`
      (f.offset = i.val ↔ f = i.failure f.construct)) ∧
    -- the tests of `many` and `manyUntil`
    ∀ k, ManyRound (p.parser ts) i k ↔ UntilRound (p.parser ts) i k := by
  have honward := Composition.onwardFrom h
  refine ⟨fun x j hx => ⟨honward.le hx, Nat.le_of_lt_succ j.isLt⟩, ?_,
    fun k => Composition.manyRound_iff h⟩
  intro f hf
  obtain ⟨k, hik, hfailure⟩ := honward.failure hf
  have hoffset : f.offset = k.val := congrArg ParseFailure.offset hfailure
  have hfound : f.found = k.found := congrArg ParseFailure.found hfailure
  refine ⟨hoffset ▸ hik, hoffset ▸ Nat.le_of_lt_succ k.isLt, ?_, ?_⟩
  · rw [hfound, hoffset]
    rfl
  · constructor
    · intro hstart
      obtain rfl : k = i := Fin.ext (hoffset.symm.trans hstart)
      exact hfailure
    · intro hstart
      exact congrArg ParseFailure.offset hstart

/-- Lists of names, each of which may be absent, up to a semicolon. -/
theorem composition_stays_in_stream_of_names :
    let names : Composition (List (List Token) × Token) :=
      .manyUntil (.optional (.separated (.token .comma) (.token .ident))) (.token .semi)
    let ts := (tokenize "a, b; c,").tokens
    (∀ i, names.Ends ts i) ∧
      (names.parser ts 0).toOption.map (·.2) = some 4 ∧
      ∃ f, names.parser ts 4 = .error f ∧ f.construct = "a name" ∧ f.offset = 6 ∧
        f.found.kind = .eof := by
  intro names ts
  have hends : ∀ i, names.Ends ts i := by
    intro i
    refine LoopEnds.of_lt (fun j => ⟨?_, fun _ => trivial⟩) fun j k _ ⟨_, _, hlt⟩ => hlt
    have hname : ∀ l, (Composition.token .ident).Ends ts l := fun _ => trivial
    exact Composition.ends_separated_token .comma hname j
  refine ⟨hends, by decide +kernel, ?_⟩
  have hreport : (match names.parser ts 4 with
      | .ok _ => none
      | .error f => some (f.construct, f.offset)) = some ("a name", 6) := by
    decide +kernel
  cases hf : names.parser ts 4 with
  | ok r =>
    rw [hf] at hreport
    cases hreport
  | error f =>
    rw [hf] at hreport
    obtain ⟨hconstruct, hoffset⟩ := Prod.mk.inj (Option.some.inj hreport)
    obtain ⟨-, hfails, -⟩ := composition_stays_in_stream names ts 4 (hends 4)
    obtain ⟨-, -, hfound, -⟩ := hfails f hf
    refine ⟨f, rfl, hconstruct, hoffset, ?_⟩
    rw [hfound, hoffset]
    decide +kernel

end TarnLang
