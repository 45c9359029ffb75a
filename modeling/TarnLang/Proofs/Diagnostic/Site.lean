/-
  TarnLang/Proofs/Diagnostic/Site.lean
  ====================================
  **Diagnostics point into their text.**  Every label of a diagnostic shows the span of a token
  or of an error of the lexer.  A failure to parse shows the token that was found, and a
  semantic error a name and the name of the symbol that it means, which are tokens of the
  text as well.  So labels lie where tokens and errors do: on lines that are there.

  What is shown beside a label is therefore never the empty line that stands for a missing one.
  `Legible` says so of the rows of a diagnostic: each source row shows a line of the text, and
  each underline stands below one and goes at most one column past it, where an end of file
  would be marked.
-/
import TarnLang.Diagnostic.OfError
import TarnLang.Diagnostic.Report
import TarnLang.Proofs.Diagnostic.Rows
import TarnLang.Proofs.Grammar.Failure
import TarnLang.Proofs.Layout.Verdict
import TarnLang.Proofs.Text.Line

namespace TarnLang

open Text (JsonValue)

/-! ### Labels -/

/-- The labels of a diagnostic: the one it is about, and the related one. -/
def Diagnostic.labels (d : Diagnostic) : List Label := d.primary.toList ++ d.related.toList

/-- Sites are the labels, in one order or the other. -/
theorem Diagnostic.sites_perm (d : Diagnostic) : (d.sites.map (·.1)).Perm d.labels := by
  have hlabels := d.perm_sites.map (·.1)
  rw [givenSites, List.map_append, List.map_map, List.map_map] at hlabels
  simpa [labels, Function.comp_def] using hlabels

theorem Diagnostic.mem_labels_iff {d : Diagnostic} {l : Label} :
    l ∈ d.labels ↔ ∃ site, (l, site) ∈ d.sites := by
  rw [← d.sites_perm.mem_iff, List.mem_map]
  constructor
  · rintro ⟨⟨l, site⟩, hs, rfl⟩
    exact ⟨site, hs⟩
  · rintro ⟨site, hs⟩
    exact ⟨(l, site), hs, rfl⟩

/-- The diagnostics that a text can lead to: for an error of the lexer, for the failure to parse
    the tokens that are left, and for the names of the program that they make up. -/
inductive Reported (source : String) : Diagnostic → Prop
  | lexical {e : LexError} (he : e ∈ (tokenize source).errors) : Reported source e.diagnostic
  | syntactic {f : ParseFailure} (hf : parse (tokenize source).tokens = .error f) :
    Reported source f.diagnostic
  | semantic {p : Program} {d : Diagnostic} (hp : parse (tokenize source).tokens = .ok p)
    (hd : d ∈ (resolve p).diagnostics) : Reported source d

/-! ### Tokens that are shown -/

/-- At every place of a stream that is not empty, a token of it is found. -/
theorem Place.found_mem {ts : Array Token} (hts : ts ≠ #[]) (k : Place ts) : k.found ∈ ts := by
  rw [Place.found_eq]
  split
  · exact Array.getElem_mem _
  · have hpos : 0 < ts.size := Array.size_pos_iff.mpr hts
    rw [Array.back?_eq_getElem?, Array.getElem?_eq_getElem (by omega)]
    exact Array.getElem_mem _

/-- What is found instead of a construct is a token of the text. -/
theorem found_mem_of_parse {source : String} {f : ParseFailure}
    (hf : parse (tokenize source).tokens = .error f) : f.found ∈ (tokenize source).tokens := by
  obtain ⟨k, -, hk, -⟩ := exists_read_of_parse_error hf
  rw [hk]
  apply Place.found_mem
  intro hnone
  obtain ⟨read, -, htokens⟩ := exists_read source
  rw [hnone] at htokens
  exact List.append_ne_nil_of_right_ne_nil _ (List.cons_ne_nil _ _) htokens.symm

namespace SemanticError

/-- The tokens that an error shows: the one it is about, and the name of the symbol it refers to. -/
def shown (e : SemanticError) : List Token :=
  e.site?.toList ++ (e.symbol?.map (·.name)).toList

theorem spans_labels (e : SemanticError) :
    e.diagnostic.labels.map (·.span) = e.shown.map (·.span) := by
  cases e with
  | useBeforeDefinition usage definition =>
    cases definition with
    | none => rfl
    | some definition => rfl
  | _ => rfl

end SemanticError

/-- Only an error of the whole program points nowhere. -/
theorem SemanticError.primary_eq_none_iff (e : SemanticError) :
    e.diagnostic.primary = none ↔ e.diagnostic.code = ErrorCode.missingMain.text := by
  cases e with
  | useBeforeDefinition usage definition =>
    cases definition with
    | none => simp [diagnostic, code, ErrorCode.text]
    | some definition => simp [diagnostic, code, ErrorCode.text]
  | _ => simp [diagnostic, code, ErrorCode.text]

/-- A suggestion changes the help of a diagnostic and nothing else. -/
theorem Resolution.exists_help (r : Resolution) (e : SemanticError) :
    ∃ help, r.diagnosticFor e = { e.diagnostic with help } := by
  unfold diagnosticFor
  split
  · split
    · exact ⟨_, rfl⟩
    · exact ⟨_, rfl⟩
  · exact ⟨_, rfl⟩

section

variable {symbol : Declared → Symbol} (hsymbol : ∀ d, (symbol d).name = d.name)

include hsymbol

theorem shown_useError {usage : Usage} {name : Token} {d : Declared} {x : SemanticError}
    (h : useError symbol usage name d = some x) : x.shown = [name, d.name] := by
  rcases useError_cases h with rfl | ⟨span, rfl⟩ | ⟨span, rfl⟩
  · simp [SemanticError.shown, SemanticError.site?, SemanticError.symbol?, hsymbol]
  · simp [SemanticError.shown, SemanticError.site?, SemanticError.symbol?, hsymbol]
  · simp [SemanticError.shown, SemanticError.site?, SemanticError.symbol?, hsymbol]

variable {es earlier : List Event} {e : Event} {x : SemanticError} {ts : List Token}

/-- An error at an event shows the name there and a name declared before. -/
theorem shown_errorAt (hearlier : names earlier ⊆ ts) (hname : ∀ t ∈ e.name?, t ∈ ts)
    (h : errorAt symbol earlier e = some x) : x.shown ⊆ ts := by
  obtain ⟨nest, happening⟩ := e
  cases happening with
  | declares kind name declaration =>
    obtain ⟨d, hd, rfl⟩ := Option.map_eq_some_iff.mp h
    have htarget := hearlier (name_mem_of_firstIn hd)
    have hname := hname name rfl
    simp [SemanticError.shown, SemanticError.site?, SemanticError.symbol?, hsymbol, hname, htarget]
  | uses usage name =>
    obtain ⟨d, hd, huse⟩ := Option.bind_eq_some_iff.mp h
    have htarget := hearlier (name_mem_of_meaning hd)
    have hname := hname name rfl
    rw [shown_useError hsymbol huse]
    simp [hname, htarget]
  | begins kind construct place => cases h

/-- **The errors of a row of events show names of the events.** -/
theorem shown_scopingErrors (h : x ∈ scopingErrors symbol es) : x.shown ⊆ names es := by
  rcases List.mem_append.mp h with h | h
  · rcases List.mem_append.mp h with h | h
    · obtain ⟨⟨earlier, e⟩, hmem, herror⟩ := List.mem_filterMap.mp h
      obtain ⟨hearlier, hname⟩ := names_of_mem_withEarlier hmem
      exact shown_errorAt hsymbol hearlier hname herror
    · obtain ⟨⟨earlier, e⟩, hmem, herror⟩ := List.mem_filterMap.mp h
      obtain ⟨-, hname⟩ := names_of_mem_withEarlier hmem
      obtain ⟨name, hunbound, rfl⟩ := Option.map_eq_some_iff.mp herror
      have hsite := hname name (name_of_unboundAt hunbound)
      cases hd : meaning es e.nest name.text with
      | none => simp [SemanticError.shown, SemanticError.site?, SemanticError.symbol?, hsite]
      | some d =>
        have htarget := name_mem_of_meaning hd
        simp [SemanticError.shown, SemanticError.site?, SemanticError.symbol?, hsymbol, hsite,
          htarget]
  · unfold mainErrors at h
    split at h
    · cases h
    · rw [List.mem_singleton.mp h]
      exact List.nil_subset _

end

/-- Diagnostics of a resolved program point at tokens of its text. -/
theorem exists_token_of_label {source : String} {p : Program} {d : Diagnostic} {l : Label}
    (hsize : source.utf8ByteSize ≤ 2 ^ 32 - 2) (hp : parse (tokenize source).tokens = .ok p)
    (hd : d ∈ (resolve p).diagnostics) (hl : l ∈ d.labels) :
    ∃ t ∈ (tokenize source).tokens, t.span = l.span := by
  obtain ⟨x, hx, rfl⟩ := List.mem_map.mp hd
  obtain ⟨help, heq⟩ := (resolve p).exists_help x
  rw [heq] at hl
  have hspan : l.span ∈ x.diagnostic.labels.map (·.span) := List.mem_map_of_mem hl
  rw [x.spans_labels] at hspan
  obtain ⟨t, ht, hspan⟩ := List.mem_map.mp hspan
  have herrors : (resolve p).errors.toList =
      scopingErrors (Declared.symbol (resolve p).scopes) p.events :=
    (Walk.follows_program (fit_of_parse hsize hp)).finish_errors
  rw [herrors] at hx
  have hname := shown_scopingErrors (fun _ => rfl) hx ht
  exact ⟨t, Array.mem_def.mpr (names_subset_of_parse hp hname), hspan⟩

/-! ### Rows -/

/-- Rows in which each source row shows a line of a text, and each underline stands below one and
    goes at most one column past it; `shown` is the text of the last source row so far. -/
def Legible (lines : LineMap) : Option String → List LayoutRow → Prop
  | _, [] => True
  | _, .source line text :: rows => lines.lineText line = some text ∧ Legible lines (some text) rows
  | shown, .underline skipped marks _ _ :: rows =>
    (∃ text, shown = some text ∧ skipped + marks ≤ text.length + 1) ∧ Legible lines shown rows
  | shown, _ :: rows => Legible lines shown rows

section

variable {lines : LineMap} {shown : Option String} {rows : List LayoutRow} {text : String}

theorem Legible.append_remarks (h : Legible lines shown rows) {remarks : List LayoutRow}
    (hremarks : ∀ row ∈ remarks, ∃ kind text, row = .remark kind text) :
    Legible lines shown (rows ++ remarks) := by
  induction rows generalizing shown with
  | nil =>
    induction remarks with
    | nil => trivial
    | cons row remarks ih =>
      obtain ⟨kind, text, rfl⟩ := hremarks row List.mem_cons_self
      exact ih fun row hrow => hremarks row (List.mem_cons_of_mem _ hrow)
  | cons row rows ih =>
    cases row with
    | source line text => exact ⟨h.1, ih h.2⟩
    | underline skipped marks site message => exact ⟨h.1, ih h.2⟩
    | _ => exact ih h

/-- The text of a line that is there is never made up. -/
theorem LineMap.lineTextOrEmpty_eq {line : UInt32} (h : lines.lineText line = some text) :
    lines.lineTextOrEmpty line = text := by
  rw [LineMap.lineTextOrEmpty, h, Option.getD_some]

/-- **An underline starts where its label does and goes at most one column past the line.** -/
theorem underlineRow_fits {l : Label} (h : l.span.On lines text) (site : Site) :
    ∃ skipped marks, underlineRow lines l site = .underline skipped marks site l.message ∧
      skipped + 1 = l.span.start.column.toNat ∧ 1 ≤ marks ∧ skipped + marks ≤ text.length + 1 := by
  have hpos : 1 ≤ l.span.start.column.toNat := UInt32.le_iff_toNat_le.mp h.one_le_column
  have hstart := h.column_le
  refine ⟨_, _, rfl, by omega, by omega, ?_⟩
  rw [LineMap.lineTextOrEmpty_eq h.lineText_eq]
  split
  · rename_i hline
    have hstop := h.stop_le hline
    omega
  · omega

theorem underlineRow_mem_siteRows {l : Label} {site : Site} {sites : List (Label × Site)}
    (h : (l, site) ∈ sites) (last : Option UInt32) :
    underlineRow lines l site ∈ siteRows lines last sites := by
  induction sites generalizing last with
  | nil => cases h
  | cons s sites ih =>
    rw [siteRows]
    apply List.mem_append_right
    rcases List.mem_cons.mp h with rfl | h
    · exact List.mem_cons_self
    · exact List.mem_cons_of_mem _ (ih h _)

/-- Every label of a diagnostic is underlined. -/
theorem Diagnostic.exists_underlineRow {d : Diagnostic} {l : Label} (hl : l ∈ d.labels) :
    ∃ site, underlineRow lines l site ∈ d.rows lines := by
  obtain ⟨site, hs⟩ := mem_labels_iff.mp hl
  refine ⟨site, List.mem_cons_of_mem _ (List.mem_append_left _ (List.mem_append_right _ ?_))⟩
  exact underlineRow_mem_siteRows hs none

/-- **The rows of labels that lie on lines are legible**, whichever line was shown before. -/
theorem legible_siteRows {sites : List (Label × Site)}
    (h : ∀ s ∈ sites, ∃ text, s.1.span.On lines text) (last : Option UInt32) :
    Legible lines (last.bind lines.lineText) (siteRows lines last sites) := by
  induction sites generalizing last with
  | nil => trivial
  | cons s sites ih =>
    obtain ⟨l, site⟩ := s
    obtain ⟨text, hon⟩ := h (l, site) List.mem_cons_self
    have hrest := ih (fun s hs => h s (List.mem_cons_of_mem _ hs)) (some l.span.start.line)
    rw [Option.bind_some, hon.lineText_eq] at hrest
    obtain ⟨skipped, marks, hrow, -, -, hfits⟩ := underlineRow_fits hon site
    -- below the source row of its line, whether that is new or not
    have hbelow : Legible lines (some text)
        (underlineRow lines l site :: siteRows lines (some l.span.start.line) sites) := by
      rw [hrow]
      exact ⟨⟨text, rfl, hfits⟩, hrest⟩
    rw [siteRows]
    simp only [LineMap.lineTextOrEmpty_eq hon.lineText_eq]
    split
    · rename_i hsame
      rw [hsame, Option.bind_some, hon.lineText_eq]
      exact hbelow
    · split
      · split
        · exact ⟨hon.lineText_eq, hbelow⟩
        · exact ⟨hon.lineText_eq, hbelow⟩
      · exact ⟨hon.lineText_eq, hbelow⟩

theorem Diagnostic.legible_rows {d : Diagnostic}
    (h : ∀ l ∈ d.labels, ∃ text, l.span.On lines text) : Legible lines none (d.rows lines) := by
  have hsites := legible_siteRows (fun s hs => h s.1 (mem_labels_iff.mpr ⟨s.2, hs⟩)) none
  have hremarks : ∀ row ∈ (d.note.map (LayoutRow.remark "note")).toList ++
      (d.help.map (LayoutRow.remark "help")).toList, ∃ kind text, row = .remark kind text := by
    intro row hrow
    rcases List.mem_append.mp hrow with hrow | hrow
    · obtain ⟨note, -, rfl⟩ := Option.map_eq_some_iff.mp (Option.mem_toList.mp hrow)
      exact ⟨_, _, rfl⟩
    · obtain ⟨help, -, rfl⟩ := Option.map_eq_some_iff.mp (Option.mem_toList.mp hrow)
      exact ⟨_, _, rfl⟩
  have hrows := hsites.append_remarks hremarks
  rw [rows]
  cases d.primary with
  | none => simpa [Legible] using hrows
  | some p => simpa [Legible] using hrows

end

/-! ### Diagnostics of a text -/

/-- Labels lie on lines of the text; they end there too, except those of a comment left open. -/
theorem Reported.on {source : String} {d : Diagnostic} (hsize : source.utf8ByteSize ≤ 2 ^ 32 - 2)
    (hd : Reported source d) {l : Label} (hl : l ∈ d.labels) :
    (∃ text, l.span.On (.ofString source) text) ∧
      (d.code ≠ ErrorCode.unterminatedComment.text → l.span.stop.line = l.span.start.line) := by
  cases hd with
  | @lexical e he =>
    obtain ⟨hon, hline⟩ := LexError.span_on hsize he
    rw [List.mem_singleton.mp hl]
    refine ⟨hon, fun hcode => hline ?_⟩
    intro hfault
    apply hcode
    show e.fault.code.text = _
    rw [hfault]
    rfl
  | syntactic hf =>
    obtain ⟨hon, hline⟩ := Token.span_on hsize (found_mem_of_parse hf)
    rw [List.mem_singleton.mp hl]
    exact ⟨hon, fun _ => hline⟩
  | semantic hp hd =>
    obtain ⟨t, ht, hspan⟩ := exists_token_of_label hsize hp hd hl
    rw [← hspan]
    obtain ⟨hon, hline⟩ := Token.span_on hsize ht
    exact ⟨hon, fun _ => hline⟩

theorem Reported.primary_eq_none_iff {source : String} {d : Diagnostic} (hd : Reported source d) :
    d.primary = none ↔ d.code = ErrorCode.missingMain.text := by
  cases hd with
  | @lexical e he =>
    obtain ⟨fault, span⟩ := e
    cases fault <;> simp [LexError.diagnostic, LexFault.code, ErrorCode.text]
  | syntactic hf => simp [ParseFailure.diagnostic, ErrorCode.text]
  | semantic hp hd =>
    obtain ⟨x, -, rfl⟩ := List.mem_map.mp hd
    obtain ⟨help, heq⟩ := Resolution.exists_help _ x
    rw [heq]
    exact x.primary_eq_none_iff

/-- **Diagnostics point into their text**, but for a missing main function.  Each label starts on a
    line that is there, at most one past its last character, and runs forwards; unless it shows a
    comment that was left open, it ends on the same line, at most one past the last character.
    The report quotes that line, and on a terminal the label is underlined below it, from its
    column on and to at most one past the last character. -/
theorem diagnostics_point_into_text {source : String} {d : Diagnostic}
    (hsize : source.utf8ByteSize ≤ 2 ^ 32 - 2) (hd : Reported source d) :
    (d.primary = none ↔ d.code = ErrorCode.missingMain.text) ∧
    (∀ l ∈ d.labels, ∃ text, l.span.On (.ofString source) text ∧
      (d.code ≠ ErrorCode.unterminatedComment.text →
        l.span.stop.line = l.span.start.line ∧ l.span.stop.column.toNat ≤ text.length + 1) ∧
      Report.labelValue (.ofString source) l =
        .object [("message", .string l.message), ("span", Report.spanValue l.span),
          ("source_line", .string text)] ∧
      ∃ skipped marks site,
        .underline skipped marks site l.message ∈ d.rows (.ofString source) ∧
        skipped + 1 = l.span.start.column.toNat ∧ 1 ≤ marks ∧
        skipped + marks ≤ text.length + 1) ∧
    Legible (.ofString source) none (d.rows (.ofString source)) := by
  refine ⟨hd.primary_eq_none_iff, ?_, Diagnostic.legible_rows fun l hl => (hd.on hsize hl).1⟩
  intro l hl
  obtain ⟨⟨text, hon⟩, hline⟩ := hd.on hsize hl
  refine ⟨text, hon, ?_, ?_, ?_⟩
  · intro hcode
    exact ⟨hline hcode, hon.stop_le (hline hcode)⟩
  · rw [Report.labelValue, LineMap.lineTextOrEmpty_eq hon.lineText_eq]
  · obtain ⟨site, hrow⟩ :
        ∃ site, underlineRow (.ofString source) l site ∈ d.rows (.ofString source) :=
      Diagnostic.exists_underlineRow hl
    obtain ⟨skipped, marks, heq, hfits⟩ := underlineRow_fits hon site
    rw [heq] at hrow
    exact ⟨skipped, marks, site, hrow, hfits⟩

/-- A declaration is cut off by the end of the text, which is reported on an empty last line. -/
theorem diagnostics_point_into_text_of_open_declaration :
    ∃ d, Reported "let x\n" d ∧ d.primarySpan? = some (Span.ofWords 2 1 2 1) ∧
      Legible (.ofString "let x\n") none (d.rows (.ofString "let x\n")) := by
  have hspan : (match parse (tokenize "let x\n").tokens with
      | .ok _ => none
      | .error f => some f.span) = some (Span.ofWords 2 1 2 1) := by
    decide +kernel
  cases h : parse (tokenize "let x\n").tokens with
  | ok p =>
    rw [h] at hspan
    cases hspan
  | error f =>
    rw [h] at hspan
    have hd : Reported "let x\n" f.diagnostic := .syntactic h
    exact ⟨f.diagnostic, hd, hspan, (diagnostics_point_into_text (by decide) hd).2.2⟩

end TarnLang
