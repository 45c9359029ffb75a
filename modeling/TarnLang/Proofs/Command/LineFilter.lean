/-
  TarnLang/Proofs/Command/LineFilter.lean
  =======================================
  **One lexical error for each line.**  The filter that a command applies to lexical errors compares
  an error with the line of the one before and remembers nothing else.  In a row of errors
  whose lines only go up that is enough: an error on the line of any earlier one is on the line of
  the last, so what is kept are the first errors of their lines, each line once.

  The errors of a run are such a row.  They belong to lexemes that stand one behind the other, and
  an error starts where its lexeme does, whether the lexeme is read on from there over several lines
  or is found to be wrong only when it has been read.
-/
import TarnLang.Proofs.Command.FirstFailure
import TarnLang.Proofs.Text.Lexer

namespace TarnLang

/-- The line on which an error starts. -/
def LexError.line (e : LexError) : UInt32 := e.span.start.line

/-- Errors whose lines only go up. -/
def LinesUp (errors : List LexError) : Prop := errors.Pairwise fun a b => a.line ≤ b.line

/-! ### The first errors of their lines -/

/-- No error in front of the place of this one starts on its line. -/
def isFirstOnLine (errors : List LexError) (e : LexError) (place : Nat) : Bool :=
  (errors.take place).all fun earlier => earlier.line ≠ e.line

/-- The errors of a row that are the first to start on their line, in the order of the row. -/
def firstsOnLines (errors : List LexError) : List LexError :=
  (errors.zipIdx.filter fun (e, place) => isFirstOnLine errors e place).map (·.1)

section Filter

variable {errors before rest : List LexError} {e : LexError} {last : Option UInt32}

theorem firstPerLineAfter_cons :
    firstPerLineAfter last (e :: rest) =
      if last = some e.line then firstPerLineAfter last rest
      else e :: firstPerLineAfter (some e.line) rest := rfl

/-- Behind errors whose lines go up, an error is on the line of one of them just when it is on the
    line of the last. -/
theorem all_line_ne_iff (hup : LinesUp (before ++ [e])) :
    (before.all fun earlier => earlier.line ≠ e.line) = true ↔
      before.getLast?.map LexError.line ≠ some e.line := by
  rcases List.eq_nil_or_concat before with rfl | ⟨front, l, rfl⟩
  · simp
  · rw [List.concat_eq_append] at hup ⊢
    obtain ⟨hbefore, -, hline⟩ := List.pairwise_append.mp hup
    obtain ⟨-, -, hfront⟩ := List.pairwise_append.mp hbefore
    have hline : l.line ≤ e.line := hline l (by simp) e (by simp)
    have hnone : l.line ≠ e.line → ∀ x ∈ front, x.line ≠ e.line := by
      intro h x hx hsame
      have hx : x.line ≤ l.line := hfront x hx l (by simp)
      exact h (UInt32.le_antisymm hline (hsame ▸ hx))
    simpa using hnone

/-- The filter behind some errors keeps what is the first on its line among all of them. -/
theorem firstPerLineAfter_eq (hup : LinesUp (before ++ rest))
    (hlast : before.getLast?.map LexError.line = last) :
    firstPerLineAfter last rest =
      ((rest.zipIdx before.length).filter fun (e, place) =>
        isFirstOnLine (before ++ rest) e place).map (·.1) := by
  induction rest generalizing before last with
  | nil => rfl
  | cons e rest ih =>
    have hall : before ++ e :: rest = before ++ [e] ++ rest := by simp
    rw [hall] at hup ⊢
    have hfirst : isFirstOnLine (before ++ [e] ++ rest) e before.length = true ↔
        last ≠ some e.line := by
      rw [← hlast, ← all_line_ne_iff (List.pairwise_append.mp hup).1]
      simp [isFirstOnLine]
    have hlast' : (before ++ [e]).getLast?.map LexError.line = some e.line := by simp
    have hnext := ih hup hlast'
    rw [List.length_append, List.length_singleton] at hnext
    rw [firstPerLineAfter_cons, List.zipIdx_cons, List.filter_cons]
    by_cases hsame : last = some e.line
    · rw [if_pos hsame, if_neg fun h => hfirst.mp h hsame, ← hnext, hsame]
    · rw [if_neg hsame, if_pos (hfirst.mpr hsame), List.map_cons, ← hnext]

/-- **To remember one line is enough** when the lines of errors go up. -/
theorem firstPerLine_eq (hup : LinesUp errors) : firstPerLine errors = firstsOnLines errors := by
  rw [← List.nil_append errors] at hup
  exact firstPerLineAfter_eq hup rfl

/-- An error that the filter drops is on a line that is represented already. -/
theorem exists_firstPerLineAfter (he : e ∈ errors) (hlast : last ≠ some e.line) :
    ∃ f ∈ firstPerLineAfter last errors, f.line = e.line := by
  induction errors generalizing last with
  | nil => cases he
  | cons x errors ih =>
    by_cases hx : x.line = e.line
    · refine ⟨x, ?_, hx⟩
      rw [firstPerLineAfter_cons, if_neg (hx ▸ hlast)]
      exact List.mem_cons_self
    · have he : e ∈ errors := by
        rcases List.mem_cons.mp he with rfl | he
        · exact absurd rfl hx
        · exact he
      rw [firstPerLineAfter_cons]
      split
      · exact ih he hlast
      · have hbehind : some x.line ≠ some e.line := by simpa using hx
        obtain ⟨f, hf, hline⟩ := ih he hbehind
        exact ⟨f, List.mem_cons_of_mem _ hf, hline⟩

/-- What the filter keeps of errors whose lines go up is on lines further and further down. -/
theorem pairwise_firstPerLineAfter (hup : LinesUp errors)
    (hlast : ∀ line ∈ last, ∀ e ∈ errors, line ≤ e.line) :
    (firstPerLineAfter last errors).Pairwise (fun a b => a.line < b.line) ∧
      ∀ line ∈ last, ∀ e ∈ firstPerLineAfter last errors, line < e.line := by
  induction errors generalizing last with
  | nil => exact ⟨.nil, fun _ _ _ he => nomatch he⟩
  | cons x errors ih =>
    obtain ⟨hx, hup⟩ := List.pairwise_cons.mp hup
    rw [firstPerLineAfter_cons]
    split
    · exact ih hup fun line hline e he => hlast line hline e (List.mem_cons_of_mem _ he)
    · rename_i hnew
      have hbehind : ∀ line ∈ some x.line, ∀ e ∈ errors, line ≤ e.line := by simpa using hx
      obtain ⟨hdown, hbelow⟩ := ih hup hbehind
      refine ⟨List.pairwise_cons.mpr ⟨fun e he => hbelow x.line rfl e he, hdown⟩, ?_⟩
      intro line hline e he
      have hlt : line < x.line := by
        refine UInt32.lt_of_le_of_ne (hlast line hline x List.mem_cons_self) ?_
        rintro rfl
        exact hnew hline
      rcases List.mem_cons.mp he with rfl | he
      · exact hlt
      · exact UInt32.lt_trans hlt (hbelow x.line rfl e he)

end Filter

/-! ### Errors of a run -/

/-- **The errors of a text start further and further on.** -/
theorem pairwise_errors {source : String} (hlength : source.utf8ByteSize < 2 ^ 32 - 1) :
    (tokenize source).errors.toList.Pairwise fun a b => a.span.start < b.span.start := by
  obtain ⟨read, unread, hscan, -, herrors, -⟩ := exists_sorted source
  rw [← utf8Length_toList] at hlength
  have hmem : ∀ l ∈ read, l ∈ scan source.toList := by
    intro l hl
    rw [hscan]
    exact List.mem_append_left unread hl
  have hapart : read.Pairwise fun a b => a.stop ≤ b.start := by
    have hall := lexemesFrom_pairwise 0 source.toList
    rw [← scan_eq, hscan] at hall
    exact (List.pairwise_append.mp hall).1
  rw [herrors]
  refine List.pairwise_filterMap.mpr (hapart.imp_of_mem ?_)
  intro a b ha hb hle e he e' he'
  rw [Lexer.error?_span he, Lexer.error?_span he']
  exact Position.lt_of_lt_of_le (Lexer.spanOf_start_lt_stop hlength (hmem a ha))
    (Lexer.spanOf_stop_le_start hlength (hmem a ha) (hmem b hb) hle)

theorem linesUp_errors {source : String} (hlength : source.utf8ByteSize < 2 ^ 32 - 1) :
    LinesUp (tokenize source).errors.toList :=
  (pairwise_errors hlength).imp fun hlt => Position.line_le (Position.le_of_lt hlt)

/-- Every code is found again by its text. -/
theorem ErrorCode.ofText?_text (code : ErrorCode) : ofText? code.text = some code := by
  cases code <;> decide

/-- A diagnostic says what is wrong, how it can be helped, and where.  Its code is that of the
    error. -/
structure LexError.ToldBy (e : LexError) (d : Diagnostic) : Prop where
  code : ErrorCode.ofText? d.code = some e.fault.code
  message : d.message = e.fault.message
  help : d.help = e.fault.hint
  span : ∃ text, d.primary = some ⟨e.span, text⟩

/-- **A command shows one lexical error for each line that has any.**  The errors that are the first
    on their line are on lines further and further down, and each line on which an error starts is
    among theirs.  A text with lexical errors ends every job in the lexer: the exit status is one,
    and what is shown are the diagnostics of these errors, in order, in a report or as text. -/
theorem one_error_for_each_line {source : String} (hsize : source.utf8ByteSize ≤ 2 ^ 32 - 2)
    (hfails : (tokenize source).errors ≠ #[]) :
    let firsts := firstsOnLines (tokenize source).errors.toList
    (∀ e ∈ (tokenize source).errors, ∃ f ∈ firsts, f.line = e.line) ∧
    (firsts.Pairwise fun a b => a.line < b.line) ∧
    (∀ e ∈ firsts, e.ToldBy e.diagnostic) ∧
    ∀ (job : Job) (phase : Phase), job.source = source →
      job.ShowsFailure [] .lex (firsts.map LexError.diagnostic) (job.run phase) := by
  have hroom : source.utf8ByteSize < 2 ^ 32 - 1 := by omega
  have hup := linesUp_errors hroom
  dsimp only
  rw [← firstPerLine_eq hup]
  refine ⟨?_, (pairwise_firstPerLineAfter hup (by simp)).1, ?_, ?_⟩
  · intro e he
    exact exists_firstPerLineAfter (Array.mem_def.mp he) (by simp)
  · intro e _
    exact ⟨e.fault.code.ofText?_text, rfl, rfl, _, rfl⟩
  · rintro job phase rfl
    have hfound : (tokenize job.source).isOk = false := by
      simpa [LexResult.isOk] using hfails
    have hsome : (firstPerLine (tokenize job.source).errors.toList).map LexError.diagnostic ≠ [] :=
      fun hnil => firstPerLine_ne_nil (by simpa using hfails) (List.map_eq_nil_iff.mp hnil)
    simp only [Job.run, hfound, Bool.not_false, if_true]
    exact Job.showsFailure_failed hsome

/-- A number that is too large and a stray character on one line, then a string and a comment that
    are left open, the comment to the end of the text.  Three of the four errors are shown. -/
theorem one_error_for_each_line_of_open_comment :
    let source := "99999999999999999999 $\n\"a\n\n/* b\n$\n"
    let job : Job := ⟨⟨false, false⟩, false, .inserted, "a.tarn", source⟩
    let firsts := firstsOnLines (tokenize source).errors.toList
    (tokenize source).errors.toList.map LexError.line = [1, 1, 2, 4] ∧
      firsts.map LexError.line = [1, 2, 4] ∧
      job.ShowsFailure [] .lex (firsts.map LexError.diagnostic) (job.run .check) ∧
      (job.run .check).stderr =
        "error[E0004]: Invalid number\n  --> a.tarn:1:1\n    |\n" ++
        "  1 | 99999999999999999999 $\n    | ^^^^^^^^^^^^^^^^^^^^ number out of range\n" ++
        "    = help: integers must fit in 64 bits\n\n" ++
        "error[E0002]: Unterminated string\n  --> a.tarn:2:1\n    |\n" ++
        "  2 | \"a\n    | ^^ string starts here\n" ++
        "    = help: Add a closing '\"' on the same line\n\n" ++
        "error[E0005]: Unterminated block comment\n  --> a.tarn:4:1\n    |\n" ++
        "  4 | /* b\n    | ^^^^ comment starts here\n" ++
        "    = help: Close the comment with '*/'\n\n\n=== Lex FAILED: 3 errors ===\n" := by
  intro source job firsts
  have hsize : source.utf8ByteSize ≤ 2 ^ 32 - 2 := by decide +kernel
  have hlines : (tokenize source).errors.toList.map LexError.line = [1, 1, 2, 4] := by
    decide +kernel
  have hfails : (tokenize source).errors ≠ #[] := by
    intro hnone
    rw [hnone] at hlines
    cases hlines
  obtain ⟨-, -, -, hshown⟩ := one_error_for_each_line hsize hfails
  exact ⟨hlines, by decide +kernel, hshown job .check rfl, by decide +kernel⟩

end TarnLang
