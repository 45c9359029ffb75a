/-
  TarnLang/Proofs/Text/ErrorLimit.lean
  ====================================
  **The limit of errors cuts cleanly.**  Without the limit, a run would turn every lexeme into
  its outcome, a token or an error, in the order of the text.  A run with the limit gives
  all outcomes when fewer errors than the limit are among them; otherwise it gives the outcomes up
  to the error that reaches the limit, this error the last, and nothing behind it.

  The check comes before a lexeme is sorted and not after, so a lexeme too many is looked at;
  nothing of it is kept.  A run leaves its lexer as it was made, so all runs are the same.
-/
import Mathlib.Logic.Function.Iterate
import TarnLang.Proofs.Text.Lexer

namespace TarnLang

namespace Lexer

/-! ### Outcomes -/

/-- What a lexeme becomes, if it is not skipped. -/
def outcome? (lx : Lexer) (l : Lexeme) : Option (Token ⊕ LexError) :=
  match l.verdict with
  | .skip => none
  | .token kind => some (.inl ⟨kind, String.ofList l.text, lx.spanOf l⟩)
  | .fault fault => some (.inr ⟨fault, lx.spanOf l⟩)

/-- What a scan of the whole text would give if errors had no limit. -/
def outcomes (lx : Lexer) : List (Token ⊕ LexError) := (scan lx.text).filterMap lx.outcome?

end Lexer

def tokensIn (outcomes : List (Token ⊕ LexError)) : List Token := outcomes.filterMap Sum.getLeft?

def errorsIn (outcomes : List (Token ⊕ LexError)) : List LexError :=
  outcomes.filterMap Sum.getRight?

section Outcomes

variable (a b : List (Token ⊕ LexError)) (t : Token) (e : LexError)

@[simp] theorem tokensIn_nil : tokensIn [] = [] := rfl

@[simp] theorem errorsIn_nil : errorsIn [] = [] := rfl

@[simp] theorem tokensIn_inl : tokensIn (.inl t :: a) = t :: tokensIn a := rfl

@[simp] theorem tokensIn_inr : tokensIn (.inr e :: a) = tokensIn a := rfl

@[simp] theorem errorsIn_inl : errorsIn (.inl t :: a) = errorsIn a := rfl

@[simp] theorem errorsIn_inr : errorsIn (.inr e :: a) = e :: errorsIn a := rfl

theorem errorsIn_append : errorsIn (a ++ b) = errorsIn a ++ errorsIn b := List.filterMap_append

end Outcomes

/-! ### Sorting up to the limit -/

/-- `e` is the error that reaches the limit when there are `already` errors: `before` are the
    outcomes in front of it. -/
structure ReachesLimit (already : Nat) (outcomes before : List (Token ⊕ LexError)) (e : LexError) :
    Prop where
  prefixed : ∃ after, outcomes = before ++ .inr e :: after
  count : already + (errorsIn before).length + 1 = maxErrors

theorem ReachesLimit.cons {already : Nat} {outcomes before : List (Token ⊕ LexError)}
    {e : LexError} (h : ReachesLimit already outcomes before e) (t : Token) :
    ReachesLimit already (.inl t :: outcomes) (.inl t :: before) e := by
  obtain ⟨after, rfl⟩ := h.prefixed
  exact ⟨⟨after, rfl⟩, h.count⟩

theorem ReachesLimit.cons_error {already : Nat} {outcomes before : List (Token ⊕ LexError)}
    {e : LexError} (h : ReachesLimit (already + 1) outcomes before e) (e' : LexError) :
    ReachesLimit already (.inr e' :: outcomes) (.inr e' :: before) e := by
  obtain ⟨after, rfl⟩ := h.prefixed
  refine ⟨⟨after, rfl⟩, ?_⟩
  rw [← h.count, errorsIn_inr, List.length_cons]
  omega

namespace Lexer

variable {lx : Lexer} {tokens : Array Token} {errors : Array LexError} {ls : List Lexeme}

theorem gather_full (hfull : maxErrors ≤ errors.size) (ls : List Lexeme) :
    lx.gather tokens errors ls = (tokens, errors) := by
  cases ls with
  | nil => rfl
  | cons l ls => rw [gather, if_pos hfull]

/-- **Sorting takes all outcomes, or those up to the error that reaches the limit.** -/
theorem gather_limit (lx : Lexer) (tokens : Array Token) (errors : Array LexError)
    (ls : List Lexeme) (hroom : errors.size < maxErrors) :
    (errors.size + (errorsIn (ls.filterMap lx.outcome?)).length < maxErrors ∧
      (lx.gather tokens errors ls).1.toList =
        tokens.toList ++ tokensIn (ls.filterMap lx.outcome?) ∧
      (lx.gather tokens errors ls).2.toList =
        errors.toList ++ errorsIn (ls.filterMap lx.outcome?)) ∨
    ∃ before e, ReachesLimit errors.size (ls.filterMap lx.outcome?) before e ∧
      (lx.gather tokens errors ls).1.toList = tokens.toList ++ tokensIn before ∧
      (lx.gather tokens errors ls).2.toList = errors.toList ++ (errorsIn before ++ [e]) := by
  fun_induction gather lx tokens errors ls with
  | case1 tokens errors =>
    refine Or.inl ⟨hroom, ?_, ?_⟩
    · simp
    · simp
  | case2 tokens errors l ls hfull => exact absurd hfull (Nat.not_le.mpr hroom)
  | case3 tokens errors l ls hleft hverdict ih =>
    have hskip : lx.outcome? l = none := by simp [outcome?, hverdict]
    rw [List.filterMap_cons_none hskip]
    exact ih hroom
  | case4 tokens errors l ls hleft kind hverdict ih =>
    have htoken : lx.outcome? l = some (.inl ⟨kind, String.ofList l.text, lx.spanOf l⟩) := by
      simp [outcome?, hverdict]
    rw [List.filterMap_cons_some htoken, tokensIn_inl, errorsIn_inl]
    rcases ih hroom with ⟨hfew, htokens, herrors⟩ | ⟨before, e, hreaches, htokens, herrors⟩
    · refine Or.inl ⟨hfew, ?_, herrors⟩
      rw [htokens, Array.toList_push, List.append_assoc, List.singleton_append]
    · refine Or.inr ⟨_, e, hreaches.cons _, ?_, herrors⟩
      rw [htokens, Array.toList_push, List.append_assoc, List.singleton_append, tokensIn_inl]
  | case5 tokens errors l ls hleft fault hverdict ih =>
    have herror : lx.outcome? l = some (.inr ⟨fault, lx.spanOf l⟩) := by
      simp [outcome?, hverdict]
    rw [List.filterMap_cons_some herror, tokensIn_inr, errorsIn_inr]
    have hsize : (errors.push ⟨fault, lx.spanOf l⟩).size = errors.size + 1 := Array.size_push _
    by_cases hmore : (errors.push ⟨fault, lx.spanOf l⟩).size < maxErrors
    · rcases ih hmore with ⟨hfew, htokens, herrors⟩ | ⟨before, e, hreaches, htokens, herrors⟩
      · refine Or.inl ⟨?_, htokens, ?_⟩
        · rw [hsize] at hfew
          rw [List.length_cons]
          omega
        · rw [herrors, Array.toList_push, List.append_assoc, List.singleton_append]
      · rw [hsize] at hreaches
        refine Or.inr ⟨_, e, hreaches.cons_error _, htokens, ?_⟩
        rw [herrors, Array.toList_push, List.append_assoc, List.singleton_append, errorsIn_inr,
          List.cons_append]
    · -- This error reaches the limit, and the next check ends the run.
      rw [gather_full (Nat.not_lt.mp hmore)]
      refine Or.inr ⟨[], _, ⟨⟨_, rfl⟩, ?_⟩, ?_, ?_⟩
      · rw [hsize] at hmore
        simp only [errorsIn_nil, List.length_nil]
        omega
      · simp
      · simp

end Lexer

/-! ### Runs -/

/-- What a run gives of the outcomes of a text. -/
structure Limited (outcomes : List (Token ⊕ LexError)) (eof : Token) (result : LexResult) :
    Prop where
  at_most : result.errors.size ≤ 20
  whole : result.errors.size < 20 →
    result.tokens.toList = tokensIn outcomes ++ [eof] ∧ result.errors.toList = errorsIn outcomes
  cut : result.errors.size = 20 →
    result.errors.toList = (errorsIn outcomes).take 20 ∧
      ∃ before e after, outcomes = before ++ .inr e :: after ∧ (errorsIn before).length = 19 ∧
        result.tokens.toList = tokensIn before ++ [eof]

namespace Lexer

theorem limited_tokenize (lx : Lexer) (hnone : lx.recorded = #[]) :
    Limited lx.outcomes lx.eofToken lx.tokenize.1 := by
  have htokens : lx.tokenize.1.tokens.toList =
      (lx.gather #[] #[] (scan lx.text)).1.toList ++ [lx.eofToken] := by
    rw [← hnone]
    exact Array.toList_push
  have herrors : lx.tokenize.1.errors = (lx.gather #[] #[] (scan lx.text)).2 := by
    rw [← hnone]
    rfl
  have hroom : (#[] : Array LexError).size < maxErrors := by decide
  rcases lx.gather_limit #[] #[] (scan lx.text) hroom with
    ⟨hfew, htokens', herrors'⟩ | ⟨before, e, hreaches, htokens', herrors'⟩
  · rw [List.nil_append] at htokens' herrors'
    rw [htokens'] at htokens
    rw [← herrors] at herrors'
    have hsize : lx.tokenize.1.errors.size < 20 := by
      rw [← Array.length_toList, herrors']
      simpa [maxErrors] using hfew
    exact ⟨Nat.le_of_lt hsize, fun _ => ⟨htokens, herrors'⟩, fun h => absurd h (Nat.ne_of_lt hsize)⟩
  · obtain ⟨after, houtcomes⟩ := hreaches.prefixed
    have hcount : (errorsIn before).length = 19 := by
      have h := hreaches.count
      simp only [List.size_toArray, List.length_nil, maxErrors] at h
      omega
    have hlength : (errorsIn before ++ [e]).length = 20 := by
      rw [List.length_append, hcount, List.length_singleton]
    rw [List.nil_append] at htokens' herrors'
    rw [htokens'] at htokens
    rw [← herrors] at herrors'
    have hsize : lx.tokenize.1.errors.size = 20 := by
      rw [← Array.length_toList, herrors', hlength]
    refine ⟨Nat.le_of_eq hsize, fun h => absurd hsize (Nat.ne_of_lt h), fun _ => ⟨?_, ?_⟩⟩
    · have hall : errorsIn lx.outcomes = errorsIn before ++ [e] ++ errorsIn after := by
        rw [outcomes, houtcomes, errorsIn_append, errorsIn_inr, List.append_assoc,
          List.singleton_append]
      rw [herrors', hall, ← hlength, List.take_left]
    · exact ⟨before, e, after, houtcomes, hcount, htokens⟩

/-- The lexer after a number of runs. -/
def afterRuns (lx : Lexer) (runs : Nat) : Lexer := (fun lx => lx.tokenize.2)^[runs] lx

/-- A run leaves a lexer as it was made. -/
theorem afterRuns_ofString (source : String) (runs : Nat) :
    (ofString source).afterRuns runs = ofString source :=
  Function.iterate_fixed rfl runs

/-- **The limit of errors cuts cleanly, and runs do not leak into each other.**  Every run of a
    lexer gives what the first one gives: at most 20 errors; all that a scan without a limit would
    give, when there are fewer; when there are 20, the first 20 errors and the tokens in front of
    the last of these. -/
theorem limited_run (source : String) (runs : Nat) :
    ((ofString source).afterRuns runs).tokenize.1 = (ofString source).tokenize.1 ∧
      Limited (ofString source).outcomes (ofString source).eofToken
        ((ofString source).afterRuns runs).tokenize.1 := by
  rw [afterRuns_ofString]
  exact ⟨rfl, limited_tokenize (ofString source) rfl⟩

/-- Nineteen faults, a name, the twentieth fault: the name behind that is not read. -/
example : ((ofString "$$$$$$$$$$$$$$$$$$$a$b$").tokenize.1.errors.size = 20) ∧
    (ofString "$$$$$$$$$$$$$$$$$$$a$b$").tokenize.1.tokens.toList.map Token.text = ["a", ""] := by
  decide +kernel

end Lexer

end TarnLang
