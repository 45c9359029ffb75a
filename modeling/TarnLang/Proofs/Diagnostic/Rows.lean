/-
  TarnLang/Proofs/Diagnostic/Rows.lean
  ====================================
  **Diagnostics as blocks of rows.**  Sites are laid out one by one, and all that is remembered
  between two of them is the line of the last source row.  The sites come in the order of their
  start, and so what comes out is a stack of blocks: for each line on which a site starts there is
  one block, its source row with the underlines of its sites below, and the lines of the blocks
  go up, with dots between two that are not adjacent.

  The layout counts in words and in columns from one.  The number after a line is only asked for
  when a site starts further down, so it fits a word; the column in front of a site is only asked
  for from the first column on, so there is one.  `siteRows?` checks both.

  A source row leads up to its text with a number on the right of its column, an underline row
  with a blank column; both are as wide for every number, because the column has room for the
  longest one.  So marks stand below the characters that they mark.
-/
import Mathlib.Data.Nat.PSub
import TarnLang.Diagnostic.Layout
import TarnLang.Proofs.Text.LineText

namespace TarnLang

variable {lines : LineMap} {d : Diagnostic}

/-! ### Sites in order -/

/-- The labels of a diagnostic, with what each is to it. -/
def Diagnostic.givenSites (d : Diagnostic) : List (Label × Site) :=
  d.primary.toList.map (·, Site.primary) ++ d.related.toList.map (·, Site.related)

/-- The sites of a diagnostic are its labels, each one once. -/
theorem Diagnostic.perm_sites (d : Diagnostic) : d.sites.Perm d.givenSites := by
  obtain ⟨code, message, primary, related, note, help⟩ := d
  cases primary with
  | none =>
    cases related with
    | none => exact .refl _
    | some r => exact .refl _
  | some p =>
    cases related with
    | none => exact .refl _
    | some r =>
      simp only [sites]
      split
      · exact .swap ..
      · exact .refl _

/-- Sites of which none starts in front of one before it. -/
def SitesInOrder (sites : List (Label × Site)) : Prop :=
  sites.Pairwise fun a b => a.1.span.start ≤ b.1.span.start

theorem Diagnostic.sitesInOrder (d : Diagnostic) : SitesInOrder d.sites := by
  obtain ⟨code, message, primary, related, note, help⟩ := d
  cases primary with
  | none =>
    cases related with
    | none => exact .nil
    | some r => exact List.pairwise_singleton ..
  | some p =>
    cases related with
    | none => exact List.pairwise_singleton ..
    | some r =>
      simp only [sites]
      split
      · rename_i hlt
        exact List.pairwise_pair.mpr (Position.le_of_lt hlt)
      · rename_i hlt
        exact List.pairwise_pair.mpr (Position.le_of_not_lt hlt)

/-- No site starts above a line. -/
def NoneAbove (line : UInt32) (sites : List (Label × Site)) : Prop :=
  ∀ s ∈ sites, line ≤ s.1.span.start.line

theorem SitesInOrder.noneAbove {s : Label × Site} {rest : List (Label × Site)}
    (h : SitesInOrder (s :: rest)) : NoneAbove s.1.span.start.line rest :=
  fun t ht => Position.line_le ((List.pairwise_cons.mp h).1 t ht)

/-! ### Checked arithmetic -/

/-- The sites that start on one line. -/
structure LineBlock where
  line : UInt32
  sites : List (Label × Site)
  ne_nil : sites ≠ []
  start_line : ∀ s ∈ sites, s.1.span.start.line = line

def underlineRows (lines : LineMap) (sites : List (Label × Site)) : List LayoutRow :=
  sites.map fun s => underlineRow lines s.1 s.2

/-- The source row of a line, and its underlines. -/
def LineBlock.rows (lines : LineMap) (b : LineBlock) : List LayoutRow :=
  .source b.line (lines.lineTextOrEmpty b.line) :: underlineRows lines b.sites

section Stack

variable {α β : Type} (dots : α) (rows : LineBlock → List α)

/-- What stands between two source rows: dots, unless their lines are adjacent. -/
def gap (above below : UInt32) : List α :=
  if below.toNat = above.toNat + 1 then [] else [dots]

/-- Blocks below the one of line `above`. -/
def stackedBelow (above : UInt32) : List LineBlock → List α
  | [] => []
  | b :: blocks => gap dots above b.line ++ rows b ++ stackedBelow b.line blocks

/-- Blocks one below the other. -/
def stacked : List LineBlock → List α
  | [] => []
  | b :: blocks => rows b ++ stackedBelow dots rows b.line blocks

theorem map_stackedBelow (f : α → β) (above : UInt32) (blocks : List LineBlock) :
    (stackedBelow dots rows above blocks).map f =
      stackedBelow (f dots) (fun b => (rows b).map f) above blocks := by
  induction blocks generalizing above with
  | nil => rfl
  | cons b blocks ih =>
    have hgap : (gap dots above b.line).map f = gap (f dots) above b.line := by
      unfold gap
      split <;> rfl
    rw [stackedBelow, stackedBelow, List.map_append, List.map_append, hgap, ih]

theorem map_stacked (f : α → β) (blocks : List LineBlock) :
    (stacked dots rows blocks).map f = stacked (f dots) (fun b => (rows b).map f) blocks := by
  cases blocks with
  | nil => rfl
  | cons b blocks => rw [stacked, stacked, List.map_append, map_stackedBelow]

end Stack

/-- Blocks of lines further and further down. -/
def Descending (blocks : List LineBlock) : Prop := blocks.Pairwise fun a b => a.line < b.line

/-- The layout sees a gap just where there is one. -/
theorem gap_eq {last line : UInt32} (h : last < line) :
    gap LayoutRow.dots last line = if line > last + 1 then [.dots] else [] := by
  have hlt := UInt32.lt_iff_toNat_lt.mp h
  have hword := line.toNat_lt
  have hnext : (last + 1).toNat = last.toNat + 1 := by
    rw [UInt32.toNat_add, UInt32.toNat_one]
    exact Nat.mod_eq_of_lt (by omega)
  have hiff : line > last + 1 ↔ line.toNat ≠ last.toNat + 1 := by
    rw [gt_iff_lt, UInt32.lt_iff_toNat_lt, hnext]
    omega
  rw [gap, ite_congr (propext hiff) (fun _ => rfl) (fun _ => rfl), ite_not]

/-- The block that a site opens, with those behind it that start on the same line. -/
def LineBlock.opened (s : Label × Site) (own : List (Label × Site))
    (hown : ∀ t ∈ own, t.1.span.start.line = s.1.span.start.line) : LineBlock where
  line := s.1.span.start.line
  sites := s :: own
  ne_nil := List.cons_ne_nil s own
  start_line := List.forall_mem_cons.mpr ⟨rfl, hown⟩

section Cons

variable {s : Label × Site} {rest : List (Label × Site)} {last : UInt32}

theorem siteRows_cons_same :
    siteRows lines (some s.1.span.start.line) (s :: rest) =
      underlineRow lines s.1 s.2 :: siteRows lines (some s.1.span.start.line) rest := by
  simp [siteRows]

theorem siteRows_cons_below (h : last < s.1.span.start.line) :
    siteRows lines (some last) (s :: rest) =
      gap LayoutRow.dots last s.1.span.start.line ++
        .source s.1.span.start.line (lines.lineTextOrEmpty s.1.span.start.line) ::
          underlineRow lines s.1 s.2 :: siteRows lines (some s.1.span.start.line) rest := by
  have hne : some last ≠ some s.1.span.start.line := fun he =>
    UInt32.lt_irrefl last (Option.some.inj he ▸ h)
  rw [siteRows, gap_eq h, if_neg hne]
  dsimp only
  split
  · rfl
  · rfl

theorem siteRows_cons_first :
    siteRows lines none (s :: rest) =
      .source s.1.span.start.line (lines.lineTextOrEmpty s.1.span.start.line) ::
        underlineRow lines s.1 s.2 :: siteRows lines (some s.1.span.start.line) rest := rfl

end Cons

/-- **Sites go on with the block of the last source row and stack blocks below it.** -/
theorem exists_blocks_below (lines : LineMap) {line : UInt32} {sites : List (Label × Site)}
    (horder : SitesInOrder sites) (hline : NoneAbove line sites) :
    ∃ own blocks, own ++ blocks.flatMap LineBlock.sites = sites ∧
      (∀ s ∈ own, s.1.span.start.line = line) ∧
      (∀ b ∈ blocks, line < b.line) ∧ Descending blocks ∧
      siteRows lines (some line) sites =
        underlineRows lines own ++ stackedBelow .dots (LineBlock.rows lines) line blocks := by
  induction sites generalizing line with
  | nil => exact ⟨[], [], rfl, List.forall_mem_nil _, List.forall_mem_nil _, .nil, rfl⟩
  | cons s rest ih =>
    obtain ⟨own, blocks, hsites, hown, hbelow, hdescending, hrows⟩ :=
      ih (List.pairwise_cons.mp horder).2 horder.noneAbove
    by_cases hsame : s.1.span.start.line = line
    · subst hsame
      refine ⟨s :: own, blocks, congrArg (s :: ·) hsites, List.forall_mem_cons.mpr ⟨rfl, hown⟩,
        hbelow, hdescending, ?_⟩
      rw [siteRows_cons_same, hrows]
      rfl
    · -- a site further down opens a block, to which the sites of its line belong
      have hlt : line < s.1.span.start.line :=
        UInt32.lt_of_le_of_ne (hline s List.mem_cons_self) fun h => hsame h.symm
      refine ⟨[], .opened s own hown :: blocks, congrArg (s :: ·) hsites, List.forall_mem_nil _,
        ?_, List.pairwise_cons.mpr ⟨hbelow, hdescending⟩, ?_⟩
      · exact List.forall_mem_cons.mpr ⟨hlt, fun b hb => UInt32.lt_trans hlt (hbelow b hb)⟩
      · rw [siteRows_cons_below hlt, hrows]
        simp [LineBlock.opened, stackedBelow, LineBlock.rows, underlineRows]

/-- **Sites in order are laid out as a stack of blocks**, one for each line on which one starts. -/
theorem exists_blocks (lines : LineMap) {sites : List (Label × Site)}
    (horder : SitesInOrder sites) :
    ∃ blocks, blocks.flatMap LineBlock.sites = sites ∧ Descending blocks ∧
      siteRows lines none sites = stacked .dots (LineBlock.rows lines) blocks := by
  cases sites with
  | nil => exact ⟨[], rfl, .nil, rfl⟩
  | cons s rest =>
    obtain ⟨own, blocks, hsites, hown, hbelow, hdescending, hrows⟩ :=
      exists_blocks_below lines (List.pairwise_cons.mp horder).2 horder.noneAbove
    refine ⟨.opened s own hown :: blocks, congrArg (s :: ·) hsites,
      List.pairwise_cons.mpr ⟨hbelow, hdescending⟩, ?_⟩
    rw [siteRows_cons_first, hrows]
    simp [LineBlock.opened, stacked, LineBlock.rows, underlineRows]

/-- There is a block for a line just when a site starts there. -/
theorem exists_block_iff {blocks : List LineBlock} {sites : List (Label × Site)}
    (hsites : blocks.flatMap LineBlock.sites = sites) (line : UInt32) :
    (∃ b ∈ blocks, b.line = line) ↔ ∃ s ∈ sites, s.1.span.start.line = line := by
  subst hsites
  constructor
  · rintro ⟨b, hb, rfl⟩
    obtain ⟨s, hs⟩ := List.exists_mem_of_ne_nil _ b.ne_nil
    exact ⟨s, List.mem_flatMap.mpr ⟨b, hb, hs⟩, b.start_line s hs⟩
  · rintro ⟨s, hs, rfl⟩
    obtain ⟨b, hb, hs⟩ := List.mem_flatMap.mp hs
    exact ⟨b, hb, (b.start_line s hs).symm⟩

/-! ### Rows as text -/

/-- Text of a line of a source; lines are what the source falls into when it is split at its line
    feeds, counted from one, and a line that is not there is empty. -/
def sourceLine (source : String) (line : UInt32) : String :=
  if line = 0 then ""
  else String.ofList ((source.toList.splitOn '\n').getD (line.toNat - 1) [])

def blanks (n : Nat) : String := String.ofList (List.replicate n ' ')

/-- A source row: the number of its line on the right of a column with room for `width` digits and
    one blank, and the text of the line. -/
def sourceText (source : String) (width : Nat) (line : UInt32) : String :=
  blanks (width + 1 - (toString line.toNat).length) ++ toString line.toNat ++ " | "
    ++ sourceLine source line

/-- The column below which the marks of a label start. -/
def Label.firstColumn (l : Label) : Nat := max l.span.start.column.toNat 1

/-- The column just past the marks of a label: where it ends, or one past the last character of
    its first line when it goes on behind that. -/
def Label.stopColumn (source : String) (l : Label) : Nat :=
  if l.span.stop.line = l.span.start.line then l.span.stop.column.toNat
  else (sourceLine source l.span.start.line).length + 1

/-- Number of marks of a label, at least one. -/
def Label.marks (source : String) (l : Label) : Nat :=
  max (l.stopColumn source - l.firstColumn) 1

/-- An underline row: a blank column for the number, blanks up to where the marks start, the marks
    and what is said beside them. -/
def underlineText (source : String) (width : Nat) (s : Label × Site) : String :=
  blanks (width + 2) ++ "| " ++ blanks (s.1.firstColumn - 1)
    ++ String.ofList (List.replicate (s.1.marks source) s.2.mark) ++ " " ++ s.1.message

def LineBlock.text (source : String) (width : Nat) (b : LineBlock) : List String :=
  sourceText source width b.line :: b.sites.map (underlineText source width)

/-- The heading, and where the primary site is. -/
def Diagnostic.headText (file : String) (width : Nat) (d : Diagnostic) : List String :=
  ("error[" ++ d.code ++ "]: " ++ d.message) ::
    match d.primary with
    | some label =>
      [blanks width ++ "--> " ++ file ++ ":" ++ toString label.span.start.line.toNat ++ ":"
        ++ toString label.span.start.column.toNat, blanks (width + 2) ++ "|"]
    | none => []

def Diagnostic.remarkText (width : Nat) (d : Diagnostic) : List String :=
  (d.note.map (blanks (width + 2) ++ "= note: " ++ ·)).toList
    ++ (d.help.map (blanks (width + 2) ++ "= help: " ++ ·)).toList

section Write

open Text (padLeft repeated)

variable {source file : String} {width : Nat}

/-- **The line that a layout quotes is the line of the source.** -/
theorem lineTextOrEmpty_ofString (source : String) (line : UInt32) :
    (LineMap.ofString source).lineTextOrEmpty line = sourceLine source line := by
  rw [LineMap.lineTextOrEmpty, sourceLine]
  split
  · rename_i hzero
    subst hzero
    rfl
  · rename_i hline
    have hpos : line.toNat ≠ 0 := fun h => hline (UInt32.toNat_inj.mp h)
    obtain ⟨n, hn⟩ := Nat.exists_eq_succ_of_ne_zero hpos
    have hpieces : (LineMap.ofString source).starts.toList.map LineStart.chars =
        source.toList.splitOn '\n' := map_chars_starts source.toList
    rw [LineMap.lineText_of_toNat hn, hn, ← hpieces, ← Array.getElem?_toList]
    simp only [Nat.succ_eq_add_one, Nat.add_sub_cancel, List.getD_eq_getElem?_getD,
      List.getElem?_map]
    cases (LineMap.ofString source).starts.toList[n]? <;> rfl

theorem write_source (line : UInt32) :
    (LayoutRow.source line ((LineMap.ofString source).lineTextOrEmpty line)).write ⟨false, file⟩
      width = sourceText source width line := by
  rw [lineTextOrEmpty_ofString]
  simp [LayoutRow.write, Text.painted, sourceText, padLeft, repeated, blanks, String.append_assoc]

theorem write_underline (label : Label) (site : Site) :
    (underlineRow (.ofString source) label site).write ⟨false, file⟩ width =
      underlineText source width (label, site) := by
  simp [LayoutRow.write, underlineRow, Text.painted, repeated, underlineText, blanks, Label.marks,
    Label.stopColumn, Label.firstColumn, lineTextOrEmpty_ofString, String.append_assoc]

theorem LineBlock.map_write (b : LineBlock) :
    (b.rows (.ofString source)).map (·.write ⟨false, file⟩ width) = b.text source width := by
  rw [LineBlock.rows, List.map_cons, write_source, underlineRows, List.map_map, LineBlock.text]
  exact congrArg _ (List.map_congr_left fun s _ => write_underline s.1 s.2)

end Write

/-! ### Columns -/

/-- The row `above` ends in a text, and `below` it stand so many marks, the first of them below a
    column of the text. -/
def Marks (above text below : List Char) (mark : Char) (column marks : Nat) : Prop :=
  ∃ left, above = left ++ text ∧ below.idxOf mark = left.length + (column - 1) ∧
    (below.drop (below.idxOf mark)).takeWhile (· = mark) = List.replicate marks mark

/-- How wide line numbers are so far never shrinks. -/
theorem le_foldl_max (widths : List Nat) (width : Nat) :
    width ≤ widths.foldl max width ∧ ∀ w ∈ widths, w ≤ widths.foldl max width := by
  induction widths generalizing width with
  | nil => exact ⟨Nat.le_refl _, List.forall_mem_nil _⟩
  | cons w widths ih =>
    obtain ⟨hstart, hrest⟩ := ih (max width w)
    rw [List.foldl_cons]
    exact ⟨Nat.le_trans (Nat.le_max_left ..) hstart,
      List.forall_mem_cons.mpr ⟨Nat.le_trans (Nat.le_max_right ..) hstart, hrest⟩⟩

/-- The column of line numbers has room for each of them. -/
theorem Diagnostic.lineDigits_le {s : Label × Site} (hs : s ∈ d.sites) :
    lineDigits s.1.span.start.line ≤ d.numberWidth := by
  have hwidth : lineDigits s.1.span.start.line ∈
      d.sites.map fun s => lineDigits s.1.span.start.line := List.mem_map.mpr ⟨s, hs, rfl⟩
  rw [numberWidth]
  exact (le_foldl_max _ 2).2 _ hwidth

/-- What a source row leads up to its text with. -/
def sourceMargin (width : Nat) (line : UInt32) : List Char :=
  List.replicate (width + 1 - (toString line.toNat).length) ' ' ++ (toString line.toNat).toList
    ++ [' ', '|', ' ']

/-- What an underline row leads up to its marks with. -/
def underlineMargin (width skipped : Nat) : List Char :=
  List.replicate (width + 2) ' ' ++ ['|', ' '] ++ List.replicate skipped ' '

section Margin

variable {source : String} {width : Nat} {line : UInt32} {site : Site}

theorem toList_sourceText :
    (sourceText source width line).toList =
      sourceMargin width line ++ (sourceLine source line).toList := by
  simp [sourceText, blanks, sourceMargin]

theorem toList_underlineText (label : Label) :
    (underlineText source width (label, site)).toList =
      underlineMargin width (label.firstColumn - 1) ++
        (List.replicate (label.marks source) site.mark ++ ' ' :: label.message.toList) := by
  simp [underlineText, blanks, underlineMargin]

theorem length_sourceMargin (hdigits : lineDigits line ≤ width) :
    (sourceMargin width line).length = width + 4 := by
  have hdigits : (toString line.toNat).length ≤ width := hdigits
  simp only [sourceMargin, List.length_append, List.length_replicate, String.length_toList,
    List.length_cons, List.length_nil]
  omega

theorem length_underlineMargin (skipped : Nat) :
    (underlineMargin width skipped).length = width + 4 + skipped := by
  simp only [underlineMargin, List.length_append, List.length_replicate, List.length_cons,
    List.length_nil]

theorem mark_not_mem_underlineMargin (site : Site) (width skipped : Nat) :
    site.mark ∉ underlineMargin width skipped := by
  cases site with
  | primary => simp [underlineMargin, Site.mark]
  | related => simp [underlineMargin, Site.mark]

/-- Marks are found behind what has none of them. -/
theorem idxOf_marks {mark : Char} {front : List Char} (hfront : mark ∉ front) {marks : Nat}
    (hmarks : 1 ≤ marks) (behind : List Char) :
    (front ++ (List.replicate marks mark ++ behind)).idxOf mark = front.length := by
  obtain ⟨more, rfl⟩ := Nat.exists_eq_add_of_le' hmarks
  rw [List.idxOf_append, if_neg hfront, List.replicate_succ, List.cons_append,
    List.idxOf_cons_self, Nat.zero_add]

/-- **Marks stand below what they mark.**  The margins of both rows are as wide, so what is skipped
    in the lower row stands below as many characters of the text. -/
theorem marks_of_text (hdigits : lineDigits line ≤ width) (label : Label) (site : Site) :
    Marks (sourceText source width line).toList (sourceLine source line).toList
      (underlineText source width (label, site)).toList site.mark label.firstColumn
      (label.marks source) := by
  have hspace : ' ' ≠ site.mark := by
    cases site with
    | primary => decide
    | related => decide
  have hfirst := idxOf_marks (mark_not_mem_underlineMargin site width (label.firstColumn - 1))
    (Nat.le_max_right (label.stopColumn source - label.firstColumn) 1) (' ' :: label.message.toList)
  refine ⟨sourceMargin width line, toList_sourceText, ?_, ?_⟩
  · rw [toList_underlineText, Label.marks, hfirst, length_underlineMargin,
      length_sourceMargin hdigits]
  · rw [toList_underlineText, Label.marks, hfirst, List.drop_left,
      List.takeWhile_append_of_pos (by simp), List.takeWhile_cons_of_neg (by simpa using hspace),
      List.append_nil]

end Margin

/-! ### The whole layout -/

/-- A text lays a diagnostic out in blocks: one for each line on which a label starts, with the text
    of that line of the source, and below it the labels that start there. -/
structure LaidOut (source file : String) (d : Diagnostic) (blocks : List LineBlock)
    (text : String) : Prop where
  /-- All together the blocks hold each label once. -/
  perm : (blocks.flatMap LineBlock.sites).Perm d.givenSites
  /-- Labels come in the order of their start. -/
  in_order : (blocks.flatMap LineBlock.sites).Pairwise fun a b => a.1.span.start ≤ b.1.span.start
  /-- There is a block for a line just when a label starts there. -/
  line_iff : ∀ line, (∃ b ∈ blocks, b.line = line) ↔ ∃ s ∈ d.givenSites, s.1.span.start.line = line
  /-- The lines of the blocks go up. -/
  descending : blocks.Pairwise fun a b => a.line < b.line
  /-- The text is the heading and the location, then the blocks, with dots between two whose lines
      are not adjacent, and then the remarks. -/
  text_eq : text = String.join ((d.headText file d.numberWidth
    ++ stacked "..." (LineBlock.text source d.numberWidth) blocks
    ++ d.remarkText d.numberWidth).map (· ++ "\n"))
  /-- The marks of a label stand below its columns of the text in the source row. -/
  marks : ∀ b ∈ blocks, ∀ s ∈ b.sites,
    Marks (sourceText source d.numberWidth b.line).toList (sourceLine source b.line).toList
      (underlineText source d.numberWidth s).toList s.2.mark s.1.firstColumn (s.1.marks source)

section Layout

variable {source file : String} {width : Nat}

theorem write_remark (kind text : String) :
    (LayoutRow.remark kind text).write ⟨false, file⟩ width =
      blanks (width + 2) ++ "= " ++ kind ++ ": " ++ text := by
  simp [LayoutRow.write, Text.painted, Text.repeated, blanks, String.append_assoc]

/-- The rows of a diagnostic as lines: heading, sites and remarks. -/
theorem Diagnostic.map_write_rows (d : Diagnostic) :
    (d.rows (.ofString source)).map (·.write ⟨false, file⟩ width) =
      d.headText file width
        ++ (siteRows (.ofString source) none d.sites).map (·.write ⟨false, file⟩ width)
        ++ d.remarkText width := by
  have hremarks : ((d.note.map (LayoutRow.remark "note")).toList
      ++ (d.help.map (LayoutRow.remark "help")).toList).map (·.write ⟨false, file⟩ width) =
        d.remarkText width := by
    rw [remarkText]
    cases d.note <;> cases d.help <;> simp [write_remark, String.append_assoc]
  have hheading : (LayoutRow.heading d.code d.message).write ⟨false, file⟩ width =
      "error[" ++ d.code ++ "]: " ++ d.message := by
    simp [LayoutRow.write, Text.painted, String.append_assoc]
  cases hprimary : d.primary with
  | none => simp [rows, headText, hprimary, hheading, ← hremarks]
  | some label =>
    have hlocation : (LayoutRow.location label.span.start).write ⟨false, file⟩ width =
        blanks width ++ "--> " ++ file ++ ":" ++ toString label.span.start.line.toNat ++ ":"
          ++ toString label.span.start.column.toNat := by
      simp [LayoutRow.write, Text.painted, Text.repeated, blanks, Position.display,
        String.append_assoc]
    have hempty : LayoutRow.empty.write ⟨false, file⟩ width = blanks (width + 2) ++ "|" := by
      simp [LayoutRow.write, Text.painted, Text.repeated, blanks]
    simp [rows, headText, hprimary, hheading, hlocation, hempty, ← hremarks]

/-- A diagnostic without colours is laid out in blocks. -/
theorem Diagnostic.exists_laidOut (source file : String) (d : Diagnostic) :
    ∃ blocks, LaidOut source file d blocks (d.format ⟨false, file⟩ (.ofString source)) := by
  obtain ⟨blocks, hsites, hdescending, hrows⟩ :=
    exists_blocks (.ofString source) d.sitesInOrder
  have hmem : ∀ s, s ∈ d.givenSites ↔ s ∈ d.sites := fun s => d.perm_sites.mem_iff.symm
  refine ⟨blocks, ?_, ?_, ?_, hdescending, ?_, ?_⟩
  · rw [hsites]
    exact d.perm_sites
  · rw [hsites]
    exact d.sitesInOrder
  · simp only [hmem]
    exact exists_block_iff hsites
  · have hdots : LayoutRow.dots.write ⟨false, file⟩ d.numberWidth = "..." := rfl
    have hblocks := map_stacked .dots (LineBlock.rows (.ofString source))
      (·.write ⟨false, file⟩ d.numberWidth) blocks
    simp only [LineBlock.map_write, hdots] at hblocks
    rw [Diagnostic.format, ← hblocks, ← hrows, ← d.map_write_rows, List.map_map]
    rfl
  · intro b hb s hs
    have hdigits := d.lineDigits_le (hsites ▸ List.mem_flatMap.mpr ⟨b, hb, hs⟩)
    rw [b.start_line s hs] at hdigits
    exact marks_of_text hdigits s.1 s.2

end Layout

end TarnLang
