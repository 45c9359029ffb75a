/-
  TarnLang/Proofs/Text/Boundary.lean
  ==================================
  **Byte offsets and their positions.**  A byte offset that stands between two characters of a
  text, or at one of its ends, has a piece of the text in front of it.  Its position counts the
  line feeds of that piece, and the characters behind the last of them.  A line feed is a single
  byte, and that byte is in no other character, so line feeds may be counted in bytes.

  Up to `2 ^ 32 - 2` bytes of text no word of a line map is cut off.  Its table ascends, and the
  line of an offset is the one that any search of the table leads to.
-/
import TarnLang.Proofs.Text.LineMap

namespace TarnLang

/-! ### Line feeds in bytes -/

/-- A byte with bits in it that a line feed has not is none. -/
theorem or_ne_lineFeed {x y : UInt8} (hy : 10 ||| y ≠ 10) : x ||| y ≠ 10 := by
  intro h
  apply hy
  calc
    10 ||| y = x ||| y ||| y := by rw [h]
    _ = x ||| y := by rw [UInt8.or_assoc, UInt8.or_self]
    _ = 10 := h

/-- A character of several bytes has no byte of a line feed in it. -/
theorem lineFeed_not_mem_utf8EncodeChar {c : Char} (hsize : c.utf8Size ≠ 1) :
    10 ∉ String.utf8EncodeChar c := by
  have hfirst : ∀ x y : UInt8, 10 ||| y ≠ 10 → 10 ≠ x ||| y := fun x y hy => (or_ne_lineFeed hy).symm
  have hnext : ∀ x : UInt8, 10 ≠ x ||| 128 := fun x => hfirst x 128 (by decide)
  rcases c.utf8Size_eq with h | h | h | h
  · exact absurd h hsize
  · simp only [String.utf8EncodeChar_eq_cons_cons h, List.mem_cons, List.not_mem_nil, or_false,
      not_or]
    exact ⟨hfirst _ 192 (by decide), hnext _⟩
  · simp only [String.utf8EncodeChar_eq_cons_cons_cons h, List.mem_cons, List.not_mem_nil, or_false,
      not_or]
    exact ⟨hfirst _ 224 (by decide), hnext _, hnext _⟩
  · simp only [String.utf8EncodeChar_eq_cons_cons_cons_cons h, List.mem_cons, List.not_mem_nil,
      or_false, not_or]
    exact ⟨hfirst _ 240 (by decide), hnext _, hnext _, hnext _⟩

/-- A character of one byte is a line feed just where its byte is. -/
theorem toUInt8_eq_lineFeed_iff {c : Char} (hsize : c.utf8Size = 1) :
    c.val.toUInt8 = 10 ↔ c = '\n' := by
  have hsmall := UInt32.le_iff_toNat_le.mp (Char.utf8Size_eq_one_iff.mp hsize)
  constructor
  · intro hbyte
    have hcode : c.val.toNat % 2 ^ 8 = 10 := congrArg UInt8.toNat hbyte
    have hfits : c.val.toNat < 2 ^ 8 := Nat.lt_of_le_of_lt hsmall (by decide)
    have hval : c.val.toNat = ('\n').val.toNat := by
      rw [← Nat.mod_eq_of_lt hfits, hcode]
      rfl
    exact Char.ext (UInt32.toNat_inj.mp hval)
  · rintro rfl
    rfl

theorem count_utf8EncodeChar (c : Char) :
    (String.utf8EncodeChar c).count 10 = [c].count '\n' := by
  by_cases hsize : c.utf8Size = 1
  · rw [String.utf8EncodeChar_eq_singleton hsize, List.count_singleton, List.count_singleton]
    simp only [beq_iff_eq, toUInt8_eq_lineFeed_iff hsize]
  · have hne : '\n' ∉ [c] := by
      rw [List.mem_singleton]
      rintro rfl
      exact hsize rfl
    rw [List.count_eq_zero.mpr (lineFeed_not_mem_utf8EncodeChar hsize),
      List.count_eq_zero.mpr hne]

theorem count_utf8Encode (cs : List Char) :
    cs.utf8Encode.data.toList.count 10 = cs.count '\n' := by
  induction cs with
  | nil => rfl
  | cons c cs ih =>
    rw [List.utf8Encode_cons, ByteArray.data_append, Array.toList_append, List.count_append, ih,
      List.utf8Encode_singleton, List.toList_data_toByteArray, count_utf8EncodeChar,
      ← List.count_append, List.singleton_append]

/-! ### Boundaries -/

section Boundary

variable {s : String}

/-- The characters in front of a boundary. -/
def charsBefore (p : s.Pos) : List Char := (s.sliceTo p).copy.toList

/-- The bytes in front of a boundary. -/
def bytesBefore (p : s.Pos) : List UInt8 := s.toByteArray.data.toList.take p.offset.byteIdx

theorem exists_eq_charsBefore_append (p : s.Pos) : ∃ behind, s.toList = charsBefore p ++ behind :=
  ⟨_, (congrArg String.toList p.splits.eq_append).trans String.toList_append⟩

theorem byteIdx_eq (p : s.Pos) : p.offset.byteIdx = utf8Length (charsBefore p) := by
  rw [p.splits.offset_eq_rawEndPos, String.byteIdx_rawEndPos, charsBefore, utf8Length_toList]

/-- A line feed in front of a boundary is a byte there. -/
theorem count_bytesBefore (p : s.Pos) :
    (bytesBefore p).count 10 = (charsBefore p).count '\n' := by
  have hbytes : s.toByteArray.data.toList = _ :=
    congrArg (fun t => t.toByteArray.data.toList) p.splits.eq_append
  rw [String.toByteArray_append, ByteArray.data_append, Array.toList_append] at hbytes
  have hlength : (s.sliceTo p).copy.toByteArray.data.toList.length = p.offset.byteIdx := by
    rw [p.splits.offset_eq_rawEndPos, String.byteIdx_rawEndPos, ← String.size_toByteArray]
    exact Array.length_toList
  rw [bytesBefore, hbytes, List.take_left' hlength, ← String.utf8Encode_toList, count_utf8Encode]
  rfl

/-- In front of the later of two boundaries more characters stand. -/
theorem exists_charsBefore_append {p q : s.Pos} (h : p < q) :
    ∃ m, m ≠ [] ∧ charsBefore q = charsBefore p ++ m := by
  obtain ⟨b, hb⟩ := exists_eq_charsBefore_append p
  obtain ⟨c, hc⟩ := exists_eq_charsBefore_append q
  have hlt := String.Pos.Raw.lt_iff.mp (String.Pos.lt_iff.mp h)
  rw [byteIdx_eq, byteIdx_eq] at hlt
  obtain ⟨m, hm⟩ := prefix_of_utf8Length_le (hb.symm.trans hc) (Nat.le_of_lt hlt)
  refine ⟨m, ?_, hm⟩
  rintro rfl
  rw [hm, List.append_nil] at hlt
  exact Nat.lt_irrefl _ hlt

/-- Every split of a text is one at a boundary. -/
theorem exists_pos {a b : List Char} (h : s.toList = a ++ b) : ∃ p : s.Pos, charsBefore p = a := by
  have hsplit : s = String.ofList a ++ String.ofList b := by
    rw [← String.ofList_append, ← h, String.ofList_toList]
  obtain ⟨p, hp⟩ : ∃ p : s.Pos, p.offset = (String.ofList a).rawEndPos :=
    ⟨⟨_, String.Pos.Raw.isValid_iff_exists_append.mpr ⟨_, _, hsplit, rfl⟩⟩, rfl⟩
  have hlength := byteIdx_eq p
  rw [hp, String.byteIdx_rawEndPos, utf8ByteSize_ofList] at hlength
  obtain ⟨c, hc⟩ := exists_eq_charsBefore_append p
  obtain ⟨m, hm⟩ := prefix_of_utf8Length_le (h.symm.trans hc) (Nat.le_of_eq hlength)
  have hgrown := length_le_utf8Length m
  rw [hm, utf8Length_append] at hlength
  have hnil : m = [] := List.eq_nil_of_length_eq_zero (by omega)
  exact ⟨p, by rw [hm, hnil, List.append_nil]⟩

end Boundary

/-! ### The table of a line map -/

section Table

variable {line line' : LineStart} {text front front' : List Char} {m n : Nat}

/-- The word of a line start is its offset. -/
theorem LineStart.Splits.toNat_offset (h : line.Splits text n front)
    (hlength : utf8Length text < 2 ^ 32) : line.offset.toNat = utf8Length front := by
  have hfront := congrArg utf8Length h.text_eq
  rw [utf8Length_append] at hfront
  have hfits : utf8Length front < 2 ^ 32 := by omega
  rw [h.offset_eq]
  exact UInt32.toNat_ofNat_of_lt' hfits

/-- A line with more line feeds in front of it starts later. -/
theorem LineStart.Splits.offset_lt (h : line.Splits text m front) (h' : line'.Splits text n front')
    (hlength : utf8Length text < 2 ^ 32) (hmn : m < n) : line.offset < line'.offset := by
  rw [UInt32.lt_iff_toNat_lt, h.toNat_offset hlength, h'.toNat_offset hlength]
  apply Nat.lt_of_not_le
  intro hle
  obtain ⟨k, hk⟩ := prefix_of_utf8Length_le (h'.text_eq.symm.trans h.text_eq) hle
  have hcount := h.count_eq
  rw [hk, List.count_append, h'.count_eq] at hcount
  omega

namespace LineMap

theorem offset_lt_of_lt (hlength : utf8Length text < 2 ^ 32)
    (hm : (ofText text).starts[m]? = some line) (hn : (ofText text).starts[n]? = some line')
    (hmn : m < n) : line.offset < line'.offset := by
  obtain ⟨front, hfront⟩ := starts_splits hm
  obtain ⟨front', hfront'⟩ := starts_splits hn
  exact hfront.offset_lt hfront' hlength hmn

/-- What a search of a table of line starts may answer: the entry of a word that is in the table,
    or else the place where the word would have to be put in. -/
inductive Search (starts : Array LineStart) (target : UInt32) : Nat ⊕ Nat → Prop
  | found {n : Nat} {line : LineStart} (at_n : starts[n]? = some line)
      (hit : line.offset = target) : Search starts target (.inl n)
  | missing {n : Nat} (le_size : n ≤ starts.size)
      (before : ∀ m line, starts[m]? = some line → m < n → line.offset < target)
      (behind : ∀ m line, starts[m]? = some line → n ≤ m → target < line.offset) :
      Search starts target (.inr n)

/-- The line of an offset is the last one that starts at or before it. -/
theorem lineIndex_eq {offset : Nat} (hn : n < (ofText text).starts.size)
    (h : ∀ m line, (ofText text).starts[m]? = some line →
      (line.offset ≤ offset.toUInt32 ↔ m ≤ n)) : (ofText text).lineIndex offset = n :=
  lastStartAtMost_eq (Nat.zero_le n) hn (Nat.le_refl _) h

/-- The line of an offset is the entry that a search finds, or the one in front of the place where
    it does not. -/
theorem lineIndex_of_search (hlength : utf8Length text < 2 ^ 32) {offset : Nat} {r : Nat ⊕ Nat}
    (h : Search (ofText text).starts offset.toUInt32 r) :
    (ofText text).lineIndex offset = r.elim id (· - 1) := by
  cases h with
  | @found n line at_n hit =>
    refine lineIndex_eq (Array.getElem?_eq_some_iff.mp at_n).1 fun m line' hm => ?_
    rw [← hit]
    constructor
    · intro hle
      apply Nat.le_of_not_lt
      intro hlt
      exact UInt32.not_lt.mpr hle (offset_lt_of_lt hlength at_n hm hlt)
    · intro hle
      rcases Nat.lt_or_eq_of_le hle with hlt | rfl
      · exact UInt32.le_of_lt (offset_lt_of_lt hlength hm at_n hlt)
      · obtain rfl := Option.some.inj (at_n.symm.trans hm)
        exact UInt32.le_refl _
  | @missing n le_size before behind =>
    cases n with
    | zero =>
      -- the first line starts at the start of the text, so nothing is put in before it
      have hfirst := behind 0 ⟨0, text⟩ rfl (Nat.le_refl 0)
      exact absurd hfirst (UInt32.not_lt.mpr UInt32.zero_le)
    | succ n =>
      refine lineIndex_eq le_size fun m line hm => ?_
      constructor
      · intro hle
        apply Nat.le_of_not_lt
        intro hlt
        exact UInt32.not_lt.mpr hle (behind m line hm hlt)
      · intro hle
        exact UInt32.le_of_lt (before m line hm (Nat.lt_succ_of_le hle))

/-- A search for the offset of a boundary has an answer. -/
theorem exists_search {a b : List Char} (hlength : utf8Length (a ++ b) < 2 ^ 32) :
    ∃ r, Search (ofText (a ++ b)).starts (utf8Length a).toUInt32 r := by
  have hsize := size_starts (a ++ b)
  rw [List.count_append] at hsize
  have hn : a.count '\n' < (ofText (a ++ b)).starts.size := by omega
  have hle_iff : ∀ m line, (ofText (a ++ b)).starts[m]? = some line →
      (line.offset ≤ (utf8Length a).toUInt32 ↔ m ≤ a.count '\n') := by
    intro m line hm
    obtain ⟨front, hfront⟩ := starts_splits hm
    exact offset_le_iff hlength hfront
  have hlast := Array.getElem?_eq_getElem hn
  by_cases hhit : (ofText (a ++ b)).starts[a.count '\n'].offset = (utf8Length a).toUInt32
  · exact ⟨_, .found hlast hhit⟩
  · refine ⟨_, .missing hn (fun m line hm hmn => ?_) fun m line hm hnm => ?_⟩
    · have hle := (hle_iff _ _ hlast).mpr (Nat.le_refl _)
      have hlt := UInt32.lt_of_le_of_ne hle hhit
      rcases Nat.lt_or_eq_of_le (Nat.le_of_lt_succ hmn) with hmn | rfl
      · exact UInt32.lt_trans (offset_lt_of_lt hlength hm hlast hmn) hlt
      · obtain rfl := Option.some.inj (hlast.symm.trans hm)
        exact hlt
    · apply UInt32.not_le.mp
      intro hle
      exact absurd ((hle_iff m line hm).mp hle) (Nat.not_le.mpr hnm)

end LineMap

end Table

/-! ### Positions of boundaries -/

namespace LineMap

variable {source : String}

theorem utf8Length_charsBefore_le (p : source.Pos) :
    utf8Length (charsBefore p) ≤ source.utf8ByteSize := by
  obtain ⟨behind, hbehind⟩ := exists_eq_charsBefore_append p
  rw [← utf8Length_toList, hbehind, utf8Length_append]
  exact Nat.le_add_right _ _

/-- The position that the line map of a text has for a boundary. -/
def boundaryPosition (p : source.Pos) : Position :=
  (ofString source).position p.offset.byteIdx

/-- The position of a boundary is the one behind the characters in front of it. -/
theorem boundaryPosition_eq (hsize : source.utf8ByteSize < 2 ^ 32) (p : source.Pos) :
    boundaryPosition p = positionAfter (charsBefore p) := by
  obtain ⟨behind, hbehind⟩ := exists_eq_charsBefore_append p
  rw [← utf8Length_toList, hbehind] at hsize
  rw [boundaryPosition, byteIdx_eq, ofString, hbehind]
  exact position_utf8Length hsize

theorem boundaryPosition_lt (hsize : source.utf8ByteSize < 2 ^ 32 - 1) {p q : source.Pos}
    (h : p < q) : boundaryPosition p < boundaryPosition q := by
  obtain ⟨m, hm, happend⟩ := exists_charsBefore_append h
  have hlater := utf8Length_charsBefore_le q
  rw [happend] at hlater
  rw [boundaryPosition_eq (by omega), boundaryPosition_eq (by omega), happend]
  exact positionAfter_lt hm (by omega)

/-- Each boundary has a position of its own. -/
theorem boundaryPosition_injective (hsize : source.utf8ByteSize < 2 ^ 32 - 1) :
    ∀ p q : source.Pos, boundaryPosition p = boundaryPosition q → p = q := by
  intro p q hpq
  rcases Nat.lt_trichotomy p.offset.byteIdx q.offset.byteIdx with hbefore | heq | hbehind
  · exact absurd hpq (Position.ne_of_lt (boundaryPosition_lt hsize hbefore))
  · exact String.Pos.ext (String.Pos.Raw.ext heq)
  · exact absurd hpq.symm (Position.ne_of_lt (boundaryPosition_lt hsize hbehind))

/-- A line starts at a boundary, at the start of the text or behind a line feed. -/
theorem exists_pos_of_start (hsize : source.utf8ByteSize < 2 ^ 32) {n : Nat} {line : LineStart}
    (h : (ofString source).starts[n]? = some line) :
    ∃ p : source.Pos, line.offset.toNat = p.offset.byteIdx ∧ (bytesBefore p).count 10 = n ∧
      lastLine (charsBefore p) = [] := by
  obtain ⟨front, hfront⟩ := starts_splits h
  obtain ⟨p, rfl⟩ := exists_pos hfront.text_eq
  rw [← utf8Length_toList] at hsize
  refine ⟨p, ?_, ?_, hfront.lastLine_eq_nil⟩
  · rw [hfront.toNat_offset hsize, byteIdx_eq]
  · rw [count_bytesBefore, hfront.count_eq]

theorem toNat_lineCount (hsize : source.utf8ByteSize < 2 ^ 32 - 1) :
    (ofString source).lineCount.toNat = (ofString source).starts.size := by
  have hcount := List.count_le_length (a := '\n') (l := source.toList)
  have hbytes := length_le_utf8Length source.toList
  rw [utf8Length_toList] at hbytes
  have hlines : (ofString source).starts.size = source.toList.count '\n' + 1 :=
    size_starts source.toList
  have hfits : (ofString source).starts.size < 2 ^ 32 := by omega
  exact UInt32.toNat_ofNat_of_lt' hfits

/-- A search for the offset of a boundary has an answer, and that leads to the line. -/
theorem search_byteIdx (hsize : source.utf8ByteSize < 2 ^ 32) (p : source.Pos) :
    (∃ r, Search (ofString source).starts p.offset.byteIdx.toUInt32 r) ∧
      ∀ r, Search (ofString source).starts p.offset.byteIdx.toUInt32 r →
        (ofString source).lineIndex p.offset.byteIdx = r.elim id (· - 1) := by
  obtain ⟨behind, hbehind⟩ := exists_eq_charsBefore_append p
  rw [← utf8Length_toList] at hsize
  refine ⟨?_, fun r hr => lineIndex_of_search hsize hr⟩
  rw [byteIdx_eq, ofString, hbehind]
  rw [hbehind] at hsize
  exact exists_search hsize

end LineMap

/-- **Byte offsets have the right line and column.**  On boundaries of characters of a text of up
    to `2 ^ 32 - 2` bytes lines count line feed bytes and columns count characters, so that a
    later offset has a later position, and each offset a position of its own.  The words that come
    in between hold what they stand for: an offset to look up, the start of a line, the number of
    lines.  Any search of the table leads to the same line. -/
theorem position_of_boundary {source : String} (hsize : source.utf8ByteSize ≤ 2 ^ 32 - 2) :
    (∀ p : source.Pos,
      (LineMap.boundaryPosition p).line.toNat = 1 + (bytesBefore p).count 10 ∧
      (LineMap.boundaryPosition p).column.toNat = 1 + (lastLine (charsBefore p)).length) ∧
    (∀ p q : source.Pos, p < q → LineMap.boundaryPosition p < LineMap.boundaryPosition q) ∧
    (∀ p q : source.Pos, LineMap.boundaryPosition p = LineMap.boundaryPosition q → p = q) ∧
    -- no word is cut off
    (∀ p : source.Pos, p.offset.byteIdx.toUInt32.toNat = p.offset.byteIdx) ∧
    (∀ n line, (LineMap.ofString source).starts[n]? = some line → ∃ p : source.Pos,
      line.offset.toNat = p.offset.byteIdx ∧ (bytesBefore p).count 10 = n ∧
        lastLine (charsBefore p) = []) ∧
    (LineMap.ofString source).lineCount.toNat = (LineMap.ofString source).starts.size ∧
    -- the search of the table
    ∀ p : source.Pos,
      (∃ r, LineMap.Search (LineMap.ofString source).starts p.offset.byteIdx.toUInt32 r) ∧
      ∀ r, LineMap.Search (LineMap.ofString source).starts p.offset.byteIdx.toUInt32 r →
        (LineMap.ofString source).lineIndex p.offset.byteIdx = r.elim id (· - 1) := by
  have hroom : source.utf8ByteSize < 2 ^ 32 - 1 := by omega
  have hwords : source.utf8ByteSize < 2 ^ 32 := by omega
  refine ⟨fun p => ?_, fun p q => LineMap.boundaryPosition_lt hroom,
    LineMap.boundaryPosition_injective hroom, fun p => ?_,
    fun n line => LineMap.exists_pos_of_start hwords, LineMap.toNat_lineCount hroom,
    LineMap.search_byteIdx hwords⟩
  · have hfront := Nat.lt_of_le_of_lt (LineMap.utf8Length_charsBefore_le p) hroom
    rw [LineMap.boundaryPosition_eq hwords, toNat_line_positionAfter hfront,
      toNat_column_positionAfter hfront, count_bytesBefore, Nat.add_comm 1, Nat.add_comm 1]
    exact ⟨rfl, rfl⟩
  · have hfits := Nat.lt_of_le_of_lt (LineMap.utf8Length_charsBefore_le p) hwords
    rw [← byteIdx_eq] at hfits
    exact UInt32.toNat_ofNat_of_lt' hfits

/-- A text of two lines, with characters of one, two and three bytes: its end is seven bytes on,
    behind the second character of the second line. -/
theorem position_of_boundary_at_end :
    let source := "é\n€x"
    source.utf8ByteSize ≤ 2 ^ 32 - 2 ∧ source.endPos.offset.byteIdx = 7 ∧
      (LineMap.ofString source).position 7 = ⟨2, 3⟩ := by
  intro source
  have hsize : source.utf8ByteSize ≤ 2 ^ 32 - 2 := by decide +kernel
  have hend : source.endPos.offset.byteIdx = 7 := by decide +kernel
  obtain ⟨hposition, -⟩ := position_of_boundary hsize
  obtain ⟨hline, hcolumn⟩ := hposition source.endPos
  have hfeeds : (bytesBefore source.endPos).count 10 = 1 := by decide +kernel
  have hchars : (lastLine (charsBefore source.endPos)).length = 2 := by decide +kernel
  simp only [LineMap.boundaryPosition, hend, hfeeds] at hline
  simp only [LineMap.boundaryPosition, hend, hchars] at hcolumn
  have hline : ((LineMap.ofString source).position 7).line = 2 := UInt32.toNat_inj.mp hline
  have hcolumn : ((LineMap.ofString source).position 7).column = 3 := UInt32.toNat_inj.mp hcolumn
  refine ⟨hsize, hend, ?_⟩
  rw [← hline, ← hcolumn]

end TarnLang
