/-
  TarnLang/Proofs/Text/Position.lean
  ==================================
  **Positions in order.**  Positions are ordered by line and then by column, and this is a
  linear order.  `positionAfter` is the position that stands behind some text, counted in
  line feeds and in characters since the last of them.  As long as the text takes fewer
  than `2 ^ 32 - 1` bytes neither count outgrows its word, and longer texts have later
  positions behind them.

  Tokens are relocated by a function that says where each position goes; nothing but their
  spans changes.
-/
import Mathlib.Algebra.Group.Nat.Defs
import TarnLang.LineMap
import TarnLang.Token

namespace TarnLang

/-! ### The order of positions -/

namespace Position

variable {p q r : Position}

theorem le_refl (p : Position) : p ≤ p := Or.inr ⟨rfl, UInt32.le_refl p.column⟩

theorem le_of_lt (h : p < q) : p ≤ q := by
  rcases h with hline | ⟨hline, hcolumn⟩
  · exact Or.inl hline
  · exact Or.inr ⟨hline, UInt32.le_of_lt hcolumn⟩

theorem lt_irrefl (p : Position) : ¬ p < p := by
  rintro (hline | ⟨-, hcolumn⟩)
  · exact UInt32.lt_irrefl p.line hline
  · exact UInt32.lt_irrefl p.column hcolumn

theorem lt_of_lt_of_le (h : p < q) (h' : q ≤ r) : p < r := by
  rcases h with hline | ⟨hline, hcolumn⟩
  · rcases h' with hline' | ⟨hline', -⟩
    · exact Or.inl (UInt32.lt_trans hline hline')
    · exact Or.inl (hline' ▸ hline)
  · rcases h' with hline' | ⟨hline', hcolumn'⟩
    · exact Or.inl (hline ▸ hline')
    · exact Or.inr ⟨hline.trans hline', UInt32.lt_of_lt_of_le hcolumn hcolumn'⟩

theorem le_trans (h : p ≤ q) (h' : q ≤ r) : p ≤ r := by
  rcases h with hline | ⟨hline, hcolumn⟩
  · exact le_of_lt (lt_of_lt_of_le (Or.inl hline) h')
  · rcases h' with hline' | ⟨hline', hcolumn'⟩
    · exact Or.inl (hline ▸ hline')
    · exact Or.inr ⟨hline.trans hline', UInt32.le_trans hcolumn hcolumn'⟩

theorem ne_of_lt (h : p < q) : p ≠ q := by
  rintro rfl
  exact lt_irrefl p h

theorem le_of_not_lt (h : ¬ q < p) : p ≤ q := by
  have hline : p.line ≤ q.line := UInt32.not_lt.mp fun hline => h (Or.inl hline)
  by_cases hsame : p.line = q.line
  · refine Or.inr ⟨hsame, UInt32.not_lt.mp fun hcolumn => ?_⟩
    exact h (Or.inr ⟨hsame.symm, hcolumn⟩)
  · exact Or.inl (UInt32.lt_of_le_of_ne hline hsame)

theorem le_antisymm (h : p ≤ q) (h' : q ≤ p) : p = q := by
  rcases h with hline | ⟨hline, hcolumn⟩
  · exact absurd (lt_of_lt_of_le (Or.inl hline) h') (lt_irrefl p)
  · rcases h' with hline' | ⟨-, hcolumn'⟩
    · exact absurd hline' (UInt32.not_lt.mpr (UInt32.le_of_eq hline))
    · cases p
      cases q
      exact congrArg₂ Position.mk hline (UInt32.le_antisymm hcolumn hcolumn')

/-- A later position is on no earlier line. -/
theorem line_le (h : p ≤ q) : p.line ≤ q.line := by
  rcases h with hline | ⟨hline, -⟩
  · exact UInt32.le_of_lt hline
  · exact UInt32.le_of_eq hline

end Position

/-! ### Lengths in bytes -/

theorem utf8Length_append (a b : List Char) : utf8Length (a ++ b) = utf8Length a + utf8Length b := by
  induction a with
  | nil => simp [utf8Length]
  | cons c a ih => simp [utf8Length, ih, Nat.add_assoc]

theorem length_le_utf8Length (a : List Char) : a.length ≤ utf8Length a := by
  induction a with
  | nil => exact Nat.le_refl 0
  | cons c a ih =>
    have hc := c.utf8Size_pos
    simp only [List.length_cons, utf8Length]
    omega

theorem utf8ByteSize_ofList (a : List Char) : (String.ofList a).utf8ByteSize = utf8Length a := by
  induction a with
  | nil => rfl
  | cons c a ih =>
    rw [String.ofList_cons, String.utf8ByteSize_append, String.utf8ByteSize_singleton, ih]
    rfl

/-- The length of a string in bytes is that of its characters. -/
theorem utf8Length_toList (s : String) : utf8Length s.toList = s.utf8ByteSize := by
  rw [← utf8ByteSize_ofList, String.ofList_toList]

/-- Of two pieces that a text starts with, the shorter one is the start of the longer. -/
theorem prefix_of_utf8Length_le {a b u v : List Char} (h : a ++ u = b ++ v)
    (hle : utf8Length a ≤ utf8Length b) : ∃ m, b = a ++ m := by
  rcases List.append_eq_append_iff.mp h with ⟨m, rfl, -⟩ | ⟨m, rfl, -⟩
  · exact ⟨m, rfl⟩
  · rw [utf8Length_append] at hle
    have hm := length_le_utf8Length m
    have hnil : m = [] := List.eq_nil_of_length_eq_zero (by omega)
    subst hnil
    exact ⟨[], by simp⟩

/-! ### Positions behind a text -/

/-- The characters of a text that stand behind its last line feed. -/
def lastLine (text : List Char) : List Char := (text.reverse.takeWhile (· ≠ '\n')).reverse

/-- The position behind a text. -/
def positionAfter (text : List Char) : Position :=
  ⟨(text.count '\n' + 1).toUInt32, ((lastLine text).length + 1).toUInt32⟩

theorem toUInt32_lt_iff {a b : Nat} (ha : a < 2 ^ 32) (hb : b < 2 ^ 32) :
    a.toUInt32 < b.toUInt32 ↔ a < b := by
  rw [UInt32.lt_iff_toNat_lt, UInt32.toNat_ofNat_of_lt' ha, UInt32.toNat_ofNat_of_lt' hb]

/-- As long as a text is not too long, no count outgrows its word. -/
theorem toNat_line_positionAfter {a : List Char} (hlength : utf8Length a < 2 ^ 32 - 1) :
    (positionAfter a).line.toNat = a.count '\n' + 1 := by
  have hbytes := length_le_utf8Length a
  have hcount := List.count_le_length (a := '\n') (l := a)
  have hfits : a.count '\n' + 1 < 2 ^ 32 := by omega
  exact UInt32.toNat_ofNat_of_lt' hfits

/-- A piece without a line feed belongs to the line that goes on behind it. -/
theorem takeWhile_append_of_not_mem {m : List Char} (hm : '\n' ∉ m) (b : List Char) :
    (m ++ b).takeWhile (· ≠ '\n') = m ++ b.takeWhile (· ≠ '\n') := by
  apply List.takeWhile_append_of_pos
  intro c hc
  have hne : c ≠ '\n' := by
    rintro rfl
    exact hm hc
  exact decide_eq_true hne

/-- A piece without a line feed makes the last line longer. -/
theorem lastLine_append {a m : List Char} (hm : '\n' ∉ m) :
    lastLine (a ++ m) = lastLine a ++ m := by
  have hreverse : '\n' ∉ m.reverse := fun h => hm (List.mem_reverse.mp h)
  rw [lastLine, List.reverse_append, takeWhile_append_of_not_mem hreverse, List.reverse_append,
    List.reverse_reverse]
  rfl

theorem length_lastLine_le (a : List Char) : (lastLine a).length ≤ a.length := by
  have hsublist := (List.takeWhile_sublist (l := a.reverse) (· ≠ '\n')).length_le
  rw [List.length_reverse] at hsublist
  rw [lastLine, List.length_reverse]
  exact hsublist

theorem toNat_column_positionAfter {a : List Char} (hlength : utf8Length a < 2 ^ 32 - 1) :
    (positionAfter a).column.toNat = (lastLine a).length + 1 := by
  have hbytes := length_le_utf8Length a
  have hline := length_lastLine_le a
  have hfits : (lastLine a).length + 1 < 2 ^ 32 := by omega
  exact UInt32.toNat_ofNat_of_lt' hfits

/-- **Behind more text the position is later**, as long as the text is not too long. -/
theorem positionAfter_lt {a m : List Char} (hm : m ≠ [])
    (hlength : utf8Length (a ++ m) < 2 ^ 32 - 1) : positionAfter a < positionAfter (a ++ m) := by
  have hbytes := length_le_utf8Length (a ++ m)
  have hcount := List.count_le_length (a := '\n') (l := a ++ m)
  have hline := length_lastLine_le (a ++ m)
  have hline_a := length_lastLine_le a
  have hpos := List.length_pos_iff.mpr hm
  rw [List.length_append] at hbytes hline hcount
  rw [List.count_append] at hcount
  by_cases hfeed : '\n' ∈ m
  · left
    have hone := List.count_pos_iff.mpr hfeed
    show (a.count '\n' + 1).toUInt32 < ((a ++ m).count '\n' + 1).toUInt32
    rw [List.count_append, toUInt32_lt_iff (by omega) (by omega)]
    omega
  · right
    have hnone := List.count_eq_zero.mpr hfeed
    have hgrown := congrArg List.length (lastLine_append (a := a) hfeed)
    rw [List.length_append] at hgrown
    constructor
    · show (a.count '\n' + 1).toUInt32 = ((a ++ m).count '\n' + 1).toUInt32
      rw [List.count_append, hnone, Nat.add_zero]
    · show ((lastLine a).length + 1).toUInt32 < ((lastLine (a ++ m)).length + 1).toUInt32
      rw [hgrown, toUInt32_lt_iff (by omega) (by omega)]
      omega

/-! ### Relocation -/

def Span.relocate (g : Position → Position) (s : Span) : Span := ⟨g s.start, g s.stop⟩

def Token.relocate (g : Position → Position) (t : Token) : Token :=
  { t with span := t.span.relocate g }

end TarnLang
