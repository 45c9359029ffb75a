/-
  TarnLang/Proofs/Text/LineText.lean
  ==================================
  **Lines by number.**  A line map is read in two ways: an offset is looked up in it, and a line
  is taken out of it by number.  Both describe one text.  The lines with numbers are the pieces
  that the text falls into when it is split at its line feeds, so that they give it back when they
  are joined, and the position of a character leads to that character.

  A line is found from offsets alone as well: it goes from the offset of its own entry to one byte
  before that of the next one, or to the end of the text when it is the last.
-/
import TarnLang.Proofs.Text.Boundary
import TarnLang.Proofs.Text.Line

namespace TarnLang

/-! ### The pieces between line feeds -/

/-- The characters of the line that starts at an entry. -/
def LineStart.chars (line : LineStart) : List Char := line.rest.takeWhile (· ≠ '\n')

theorem LineStart.lineFeed_not_mem_chars (line : LineStart) : '\n' ∉ line.chars :=
  not_mem_takeWhile (by decide) line.rest

/-- A line goes on to the end of its text, or to the next line feed. -/
theorem LineStart.rest_cases (line : LineStart) :
    line.rest = line.chars ∨ ∃ behind, line.rest = line.chars ++ '\n' :: behind := by
  obtain ⟨offset, rest⟩ := line
  induction rest with
  | nil => exact Or.inl rfl
  | cons c rest ih =>
    by_cases hc : c = '\n'
    · exact Or.inr ⟨rest, by simp [chars, hc]⟩
    · simpa [chars, hc] using ih

/-- The table has one entry for each piece that splitting at line feeds gives. -/
theorem map_chars_starts (text : List Char) :
    (LineMap.ofText text).starts.toList.map LineStart.chars = text.splitOn '\n' := by
  have hafter : ∀ first offset, (LineStart.mk first text :: lineStartsAfter offset text).map
      LineStart.chars = text.splitOn '\n' := by
    induction text with
    | nil => simp [lineStartsAfter, LineStart.chars]
    | cons c text ih =>
      intro first offset
      rw [List.splitOn_cons_eq_if_modifyHead, ← ih 0 (offset + c.utf8Size)]
      by_cases hc : c = '\n'
      · simp [lineStartsAfter, LineStart.chars, hc]
      · simp [lineStartsAfter, LineStart.chars, hc]
  exact hafter 0 0

namespace LineMap

variable {text front front' : List Char} {line line' : LineStart} {n : Nat}

theorem lineText_of_toNat {m : LineMap} {number : UInt32} (h : number.toNat = n + 1) :
    m.lineText number = m.starts[n]?.map fun line => String.ofList line.chars := by
  rw [lineText, h]
  rfl

/-- Joined with line feeds, the lines of the table are the text. -/
theorem intercalate_chars (source : String) :
    String.intercalate "\n"
      ((ofString source).starts.toList.map fun line => String.ofList line.chars) = source := by
  have hchars : ∀ starts : List LineStart,
      (starts.map fun line => String.ofList line.chars).map String.toList =
        starts.map LineStart.chars := by
    simp
  rw [← String.toList_inj, String.toList_intercalate, hchars]
  calc
    ['\n'].intercalate ((ofString source).starts.toList.map LineStart.chars)
      = ['\n'].intercalate (source.toList.splitOn '\n') :=
        congrArg _ (map_chars_starts source.toList)
    _ = source.toList := List.intercalate_splitOn '\n'

/-! ### Lines from offsets -/

/-- The text between two offsets, if both are boundaries and the first is no further on. -/
def charsBetween (text : List Char) (start stop : Nat) : Option (List Char) :=
  match charsWithin text start, charsWithin text stop with
  | some skipped, some taken =>
    if start ≤ stop then some ((text.take taken).drop skipped) else none
  | _, _ => none

theorem charsBetween_append (a m b : List Char) :
    charsBetween (a ++ m ++ b) (utf8Length a) (utf8Length (a ++ m)) = some m := by
  have hstart : charsWithin (a ++ m ++ b) (utf8Length a) = some a.length := by
    rw [List.append_assoc]
    exact charsWithin_append a (m ++ b)
  have hle : utf8Length a ≤ utf8Length (a ++ m) := by simp [utf8Length_append]
  rw [charsBetween, hstart, charsWithin_append]
  dsimp only
  rw [if_pos hle, List.take_left, List.drop_left]

/-- A line by its number, read from the offsets of the table: it ends one byte before the next line
    starts, and the last line ends with the text. -/
def lineFromOffsets (m : LineMap) (text : List Char) (number : UInt32) : Option String :=
  match number.toNat with
  | 0 => none
  | index + 1 =>
    m.starts[index]?.bind fun line =>
      let stop := match m.starts[index + 1]? with
        | some next => next.offset.toNat - 1
        | none => utf8Length text
      (charsBetween text line.offset.toNat stop).map String.ofList

/-- Between the starts of a line and of the next one stand the line and its line feed. -/
theorem front_of_next (h : line.Splits text n front) (h' : line'.Splits text (n + 1) front') :
    front' = front ++ line.chars ++ ['\n'] := by
  have hcount := List.count_eq_zero.mpr line.lineFeed_not_mem_chars
  rcases line.rest_cases with hrest | ⟨behind, hrest⟩
  · -- with no line feed behind its start, the line would be the last
    have hfeeds := congrArg (List.count '\n') (h.text_eq.symm.trans h'.text_eq)
    rw [hrest, List.count_append, List.count_append, hcount, h.count_eq, h'.count_eq] at hfeeds
    omega
  · have hfront : (front ++ line.chars ++ ['\n']).count '\n' = n + 1 := by
      simp [List.count_append, hcount, h.count_eq]
    have htext : text = front ++ line.chars ++ ['\n'] ++ behind := by
      rw [h.text_eq, hrest]
      simp
    rw [htext, ← hfront] at h'
    obtain ⟨hsplit, -⟩ := h'.eq_append_lastLine
    rw [lastLine_append_lineFeed] at hsplit
    exact (hsplit.trans (List.append_nil _)).symm

/-- The last line ends with its text. -/
theorem text_of_last (h : line.Splits text n front)
    (hlast : (ofText text).starts[n + 1]? = none) : text = front ++ line.chars := by
  have hsize := Array.getElem?_eq_none_iff.mp hlast
  rw [size_starts] at hsize
  rcases line.rest_cases with hrest | ⟨behind, hrest⟩
  · rw [← hrest]
    exact h.text_eq
  · have hfeeds := congrArg (List.count '\n') h.text_eq
    rw [hrest, List.count_append, List.count_append, List.count_cons_self, h.count_eq] at hfeeds
    omega

/-- **Offsets of the table bound the lines.** -/
theorem lineFromOffsets_eq (hlength : utf8Length text < 2 ^ 32) (number : UInt32) :
    (ofText text).lineFromOffsets text number = (ofText text).lineText number := by
  cases hnumber : number.toNat with
  | zero => simp [lineFromOffsets, lineText, hnumber]
  | succ n =>
    simp only [lineText_of_toNat hnumber, lineFromOffsets, hnumber]
    cases hline : (ofText text).starts[n]? with
    | none => rfl
    | some line =>
      obtain ⟨front, hfront⟩ := starts_splits hline
      cases hnext : (ofText text).starts[n + 1]? with
      | none =>
        have hlast := text_of_last hfront hnext
        have hbetween := charsBetween_append front line.chars []
        rw [List.append_nil, ← hlast, ← hfront.toNat_offset hlength] at hbetween
        simp [hbetween]
      | some next =>
        obtain ⟨front', hfront'⟩ := starts_splits hnext
        have hstop : next.offset.toNat - 1 = utf8Length (front ++ line.chars) := by
          rw [hfront'.toNat_offset hlength, front_of_next hfront hfront', utf8Length_append]
          rfl
        have htext : text = front ++ line.chars ++ '\n' :: next.rest := by
          rw [hfront'.text_eq, front_of_next hfront hfront', List.append_assoc,
            List.singleton_append]
        have hbetween := charsBetween_append front line.chars ('\n' :: next.rest)
        rw [← htext, ← hfront.toNat_offset hlength, ← hstop] at hbetween
        simp [hbetween]

/-! ### Characters and their positions -/

variable {source : String}

/-- The character at a boundary stands behind those in front of it. -/
theorem exists_eq_charsBefore_cons (p : source.Pos) (hp : p ≠ source.endPos) :
    ∃ behind, source.toList = charsBefore p ++ p.get hp :: behind := by
  obtain ⟨behind, hbehind⟩ := p.splits.exists_eq_singleton_append hp
  refine ⟨behind.toList, ?_⟩
  have hsource := congrArg String.toList p.splits.eq_append
  rw [hbehind, String.toList_append, String.toList_append, String.toList_singleton] at hsource
  exact hsource

/-- **The position of a character leads back to it.** -/
theorem lineText_at (hsize : source.utf8ByteSize < 2 ^ 32 - 1) (p : source.Pos)
    (hp : p ≠ source.endPos) (hfeed : p.get hp ≠ '\n') :
    ∃ text k, (ofString source).lineText (boundaryPosition p).line = some text ∧
      (boundaryPosition p).column.toNat = k + 1 ∧ text.toList[k]? = some (p.get hp) := by
  obtain ⟨behind, hbehind⟩ := exists_eq_charsBefore_cons p hp
  have hfront := Nat.lt_of_le_of_lt (utf8Length_charsBefore_le p) hsize
  rw [← utf8Length_toList, hbehind] at hsize
  have hline := lineText_positionAfter hsize
  rw [← hbehind] at hline
  rw [boundaryPosition_eq (by rw [← utf8Length_toList, hbehind]; omega)]
  refine ⟨_, _, hline, toNat_column_positionAfter hfront, ?_⟩
  simp [lineAround, hfeed]

/-- A line is there for each number from one to the number of lines. -/
theorem isSome_lineText_iff (hsize : source.utf8ByteSize < 2 ^ 32 - 1) (number : UInt32) :
    ((ofString source).lineText number).isSome = true ↔
      1 ≤ number ∧ number ≤ (ofString source).lineCount := by
  have hone : (1 : UInt32).toNat = 1 := rfl
  rw [UInt32.le_iff_toNat_le, UInt32.le_iff_toNat_le, toNat_lineCount hsize, hone]
  cases hnumber : number.toNat with
  | zero => simp [lineText, hnumber]
  | succ n =>
    rw [lineText_of_toNat hnumber, Option.isSome_map, isSome_getElem?]
    omega

/-- Taken out by number, the lines of a text are those of its table. -/
theorem map_lineText_range (hsize : source.utf8ByteSize < 2 ^ 32 - 1) :
    ((List.range (ofString source).lineCount.toNat).map fun n =>
        (ofString source).lineText (n + 1).toUInt32) =
      ((ofString source).starts.toList.map fun line => String.ofList line.chars).map some := by
  have hcount := (ofString source).lineCount.toNat_lt
  rw [toNat_lineCount hsize] at hcount ⊢
  apply List.ext_getElem
  · simp
  · intro n hn _
    rw [List.length_map, List.length_range] at hn
    have hnumber : (n + 1).toUInt32.toNat = n + 1 :=
      UInt32.toNat_ofNat_of_lt' (Nat.lt_of_le_of_lt hn hcount)
    have hline := lineText_of_toNat (m := ofString source) hnumber
    rw [Array.getElem?_eq_getElem hn] at hline
    simp only [List.getElem_map, List.getElem_range, hline]
    simp

end LineMap

/-- **Lines by number and positions describe one text.**  Lines are there for the numbers from one
    to their count and for no others; they hold no line feed, and joined with line feeds they give
    the text back.  At the line and column of any other character stands that character.  The same
    lines are read from the offsets of the table alone. -/
theorem lines_describe_text {source : String} (hsize : source.utf8ByteSize ≤ 2 ^ 32 - 2) :
    (∀ number, ((LineMap.ofString source).lineText number).isSome = true ↔
      1 ≤ number ∧ number ≤ (LineMap.ofString source).lineCount) ∧
    (∃ lines : List String,
      ((List.range (LineMap.ofString source).lineCount.toNat).map fun n =>
        (LineMap.ofString source).lineText (n + 1).toUInt32) = lines.map some ∧
      String.intercalate "\n" lines = source ∧ ∀ line ∈ lines, '\n' ∉ line.toList) ∧
    (∀ (p : source.Pos) (hp : p ≠ source.endPos), p.get hp ≠ '\n' →
      ∃ text k, (LineMap.ofString source).lineText (LineMap.boundaryPosition p).line = some text ∧
        (LineMap.boundaryPosition p).column.toNat = k + 1 ∧
        text.toList[k]? = some (p.get hp)) ∧
    ∀ number, (LineMap.ofString source).lineFromOffsets source.toList number =
      (LineMap.ofString source).lineText number := by
  have hroom : source.utf8ByteSize < 2 ^ 32 - 1 := by omega
  have hwords : utf8Length source.toList < 2 ^ 32 := by
    rw [utf8Length_toList]
    omega
  refine ⟨LineMap.isSome_lineText_iff hroom,
    ⟨_, LineMap.map_lineText_range hroom, LineMap.intercalate_chars source, ?_⟩,
    LineMap.lineText_at hroom, LineMap.lineFromOffsets_eq hwords⟩
  intro line hline
  obtain ⟨start, -, rfl⟩ := List.mem_map.mp hline
  rw [String.toList_ofList]
  exact start.lineFeed_not_mem_chars

/-- A text with an empty line inside and one at its end: there are four lines, and the character at
    byte five, behind one of two bytes, is the second of the third line. -/
theorem lines_describe_text_behind_empty_line :
    let source := "é\n\nx€\n"
    let m := LineMap.ofString source
    source.utf8ByteSize ≤ 2 ^ 32 - 2 ∧
      (m.lineText 4).isSome = true ∧ (m.lineText 5).isSome = false ∧
      (m.lineText 3).bind (·.toList[1]?) = some '€' := by
  intro source m
  have hsize : source.utf8ByteSize ≤ 2 ^ 32 - 2 := by decide +kernel
  obtain ⟨hthere, -, hchars, -⟩ := lines_describe_text hsize
  have hcount : m.lineCount = 4 := by decide +kernel
  refine ⟨hsize, (hthere 4).mpr ?_, ?_, ?_⟩
  · rw [hcount]
    decide
  · rw [← Bool.not_eq_true, hthere 5, hcount]
    decide
  · obtain ⟨hvalid, hp, hget, hposition⟩ : ∃ (hvalid : String.Pos.Raw.IsValid source ⟨5⟩)
        (hp : (⟨⟨5⟩, hvalid⟩ : source.Pos) ≠ source.endPos),
        String.Pos.get ⟨⟨5⟩, hvalid⟩ hp = '€' ∧
          @LineMap.boundaryPosition source ⟨⟨5⟩, hvalid⟩ = ⟨3, 2⟩ := by
      decide +kernel
    obtain ⟨text, k, hline, hcolumn, hchar⟩ := hchars _ hp (by rw [hget]; decide)
    rw [hposition] at hline hcolumn
    obtain rfl : k = 1 := (Nat.succ.inj hcolumn).symm
    rw [hline, Option.bind_some, hchar, hget]

end TarnLang
