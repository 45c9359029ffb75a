/-
  TarnLang/Proofs/Text/LineMap.lean
  =================================
  **A line map finds the position behind every piece that a text starts with.**  Each entry
  of the map belongs to a split of the text: in front of it stands everything up to a line
  feed, or nothing.  Splits of one text are comparable, so an entry starts at or before a
  character boundary exactly when no more line feeds stand in front of it than in front of
  the boundary.  That is the test by which the interval of lines is halved, and the line
  that it leaves is the last one that passes it.
-/
import TarnLang.Proofs.Text.Position

namespace TarnLang

/-! ### Entries of a line map -/

/-- A line start that belongs to a split of a text, with `n` line feeds in front of it. -/
structure LineStart.Splits (s : LineStart) (text : List Char) (n : Nat) (front : List Char) :
    Prop where
  text_eq : text = front ++ s.rest
  offset_eq : s.offset = (utf8Length front).toUInt32
  count_eq : front.count '\n' = n
  ends : front = [] ∨ front.getLast? = some '\n'

namespace LineStart.Splits

variable {s : LineStart} {a b front : List Char} {n : Nat}

/-- A split with no more line feeds in front of it than a piece of the text has is a split of
    that piece. -/
theorem exists_append (hs : s.Splits (a ++ b) n front) (hn : n ≤ a.count '\n') :
    ∃ m, a = front ++ m := by
  rcases List.append_eq_append_iff.mp hs.text_eq with ⟨m, hm, -⟩ | ⟨m, hm, -⟩
  · -- the piece comes first, so the line feed that ends the front would be behind the piece
    have hcount := hs.count_eq
    rw [hm, List.count_append] at hcount
    have hnone : '\n' ∉ m := List.count_eq_zero.mp (by omega)
    cases hlast : m.getLast? with
    | none =>
      rw [List.getLast?_eq_none_iff] at hlast
      rw [hlast, List.append_nil] at hm
      exact ⟨[], by rw [hm, List.append_nil]⟩
    | some c =>
      have hfront : front.getLast? = some c := by
        rw [hm, List.getLast?_append, hlast]
        rfl
      rcases hs.ends with hnil | hends
      · rw [hnil] at hfront
        cases hfront
      · rw [hends] at hfront
        obtain rfl := Option.some.inj hfront
        exact absurd (List.mem_of_getLast? hlast) hnone
  · exact ⟨m, hm⟩

theorem lastLine_eq_nil {text : List Char} (hs : s.Splits text n front) : lastLine front = [] := by
  rcases hs.ends with rfl | hends
  · rfl
  · rw [← List.head?_reverse] at hends
    obtain ⟨rest, hrest⟩ := List.head?_eq_some_iff.mp hends
    simp [lastLine, hrest]

/-- What stands between the split of its line and the end of a piece is its last line. -/
theorem eq_append_lastLine (hs : s.Splits (a ++ b) (a.count '\n') front) :
    a = front ++ lastLine a ∧ s.rest = lastLine a ++ b := by
  obtain ⟨m, rfl⟩ := hs.exists_append (Nat.le_refl _)
  have hcount := hs.count_eq
  rw [List.count_append] at hcount
  have hnone : '\n' ∉ m := List.count_eq_zero.mp (by omega)
  have htext := hs.text_eq
  rw [List.append_assoc] at htext
  rw [lastLine_append hnone, hs.lastLine_eq_nil]
  exact ⟨rfl, (List.append_cancel_left htext).symm⟩

end LineStart.Splits

/-- Every entry behind the first belongs to a split behind a line feed. -/
theorem lineStartsAfter_splits {offset n : Nat} {cs : List Char} {s : LineStart}
    (h : (lineStartsAfter offset cs)[n]? = some s) :
    ∃ front, cs = front ++ s.rest ∧ s.offset = (offset + utf8Length front).toUInt32 ∧
      front.count '\n' = n + 1 ∧ front.getLast? = some '\n' := by
  induction cs generalizing offset n with
  | nil => cases h
  | cons c cs ih =>
    have hgrow : ∀ {m : Nat}, (lineStartsAfter (offset + c.utf8Size) cs)[m]? = some s →
        ∃ front, c :: cs = c :: front ++ s.rest ∧
          s.offset = (offset + utf8Length (c :: front)).toUInt32 ∧
          front.count '\n' = m + 1 ∧ (c :: front).getLast? = some '\n' := by
      intro m hm
      obtain ⟨front, hfront, hoffset, hcount, hends⟩ := ih hm
      refine ⟨front, ?_, ?_, hcount, ?_⟩
      · rw [List.cons_append, ← hfront]
      · rw [hoffset, utf8Length, Nat.add_assoc]
      · rw [List.getLast?_cons, hends]
        rfl
    unfold lineStartsAfter at h
    split at h
    · rename_i hc
      subst hc
      cases n with
      | zero =>
        obtain rfl := Option.some.inj h
        exact ⟨['\n'], rfl, rfl, rfl, rfl⟩
      | succ n =>
        obtain ⟨front, hfront, hoffset, hcount, hends⟩ := hgrow h
        refine ⟨'\n' :: front, hfront, hoffset, ?_, hends⟩
        rw [List.count_cons_self, hcount]
    · rename_i hc
      obtain ⟨front, hfront, hoffset, hcount, hends⟩ := hgrow h
      refine ⟨c :: front, hfront, hoffset, ?_, hends⟩
      rw [List.count_cons_of_ne hc, hcount]

theorem length_lineStartsAfter (offset : Nat) (cs : List Char) :
    (lineStartsAfter offset cs).length = cs.count '\n' := by
  induction cs generalizing offset with
  | nil => rfl
  | cons c cs ih =>
    unfold lineStartsAfter
    split
    · rename_i hc
      rw [hc, List.length_cons, ih, List.count_cons_self]
    · rename_i hc
      rw [ih, List.count_cons_of_ne hc]

namespace LineMap

theorem size_starts (text : List Char) : (ofText text).starts.size = text.count '\n' + 1 := by
  simp [ofText, length_lineStartsAfter]

/-- Each entry of the map of a text belongs to a split of it. -/
theorem starts_splits {text : List Char} {n : Nat} {s : LineStart}
    (h : (ofText text).starts[n]? = some s) : ∃ front, s.Splits text n front := by
  simp only [ofText, List.getElem?_toArray] at h
  cases n with
  | zero =>
    obtain rfl := Option.some.inj h
    exact ⟨[], rfl, rfl, rfl, Or.inl rfl⟩
  | succ n =>
    obtain ⟨front, hfront, hoffset, hcount, hends⟩ := lineStartsAfter_splits h
    rw [Nat.zero_add] at hoffset
    exact ⟨front, hfront, hoffset, hcount, Or.inr hends⟩

/-! ### The line of a boundary -/

/-- Halving finds the last line that starts at or before the target, when the lines that do
    are those up to it. -/
theorem lastStartAtMost_eq {starts : Array LineStart} {target : UInt32} {lo hi n : Nat}
    (hlo : lo ≤ n) (hhi : n < hi) (hsize : hi ≤ starts.size)
    (h : ∀ m s, starts[m]? = some s → (s.offset ≤ target ↔ m ≤ n)) :
    lastStartAtMost starts target lo hi = n := by
  fun_induction lastStartAtMost starts target lo hi with
  | case1 lo hi hdone => omega
  | case2 lo hi hdone mid line hline hle ih =>
    have hmid := (h mid line hline).mp hle
    exact ih hmid hhi hsize
  | case3 lo hi hdone mid line hline hle ih =>
    have hmid : ¬ mid ≤ n := fun hn => hle ((h mid line hline).mpr hn)
    exact ih hlo (by omega) (by omega)
  | case4 lo hi hdone mid hnone ih =>
    have hmid : starts.size ≤ mid := Array.getElem?_eq_none_iff.mp hnone
    omega

/-- A line starts at or before a boundary when it has no more line feeds in front. -/
theorem offset_le_iff {a b front : List Char} {n : Nat} {s : LineStart}
    (hlength : utf8Length (a ++ b) < 2 ^ 32) (hs : s.Splits (a ++ b) n front) :
    s.offset ≤ (utf8Length a).toUInt32 ↔ n ≤ a.count '\n' := by
  have hfront := congrArg utf8Length hs.text_eq
  rw [utf8Length_append, utf8Length_append] at hfront
  rw [utf8Length_append] at hlength
  have hoffset : s.offset ≤ (utf8Length a).toUInt32 ↔ utf8Length front ≤ utf8Length a := by
    rw [hs.offset_eq, ← UInt32.not_lt, toUInt32_lt_iff (by omega) (by omega), Nat.not_lt]
  rw [hoffset, ← hs.count_eq]
  constructor
  · intro hle
    obtain ⟨m, rfl⟩ := prefix_of_utf8Length_le hs.text_eq.symm hle
    rw [List.count_append]
    omega
  · intro hcount
    obtain ⟨m, rfl⟩ := hs.exists_append (hs.count_eq ▸ hcount)
    rw [utf8Length_append]
    exact Nat.le_add_right _ _

theorem lineIndex_utf8Length {a b : List Char} (hlength : utf8Length (a ++ b) < 2 ^ 32) :
    (ofText (a ++ b)).lineIndex (utf8Length a) = a.count '\n' := by
  have hsize := size_starts (a ++ b)
  rw [List.count_append] at hsize
  refine lastStartAtMost_eq (Nat.zero_le _) (by omega) (Nat.le_refl _) ?_
  intro m s hs
  obtain ⟨front, hfront⟩ := starts_splits hs
  exact offset_le_iff hlength hfront

/-! ### The column of a boundary -/

theorem charsWithin_append (a b : List Char) : charsWithin (a ++ b) (utf8Length a) = some a.length := by
  induction a with
  | nil =>
    cases b with
    | nil => rfl
    | cons c b => rfl
  | cons c a ih =>
    obtain ⟨n, hn⟩ := Nat.exists_eq_add_one.mpr c.utf8Size_pos
    have hlength : utf8Length (c :: a) = (n + utf8Length a) + 1 := by
      rw [utf8Length, hn]
      omega
    have hrest : n + utf8Length a + 1 - c.utf8Size = utf8Length a := by omega
    rw [hlength, List.cons_append, charsWithin, if_pos (by omega), hrest, ih]
    rfl

/-- **A line map finds the position behind every piece that its text starts with.** -/
theorem position_utf8Length {a b : List Char} (hlength : utf8Length (a ++ b) < 2 ^ 32) :
    (ofText (a ++ b)).position (utf8Length a) = positionAfter a := by
  have hindex := lineIndex_utf8Length hlength
  have hsize := size_starts (a ++ b)
  rw [List.count_append] at hsize
  have hlt : a.count '\n' < (ofText (a ++ b)).starts.size := by omega
  obtain ⟨front, hfront⟩ := starts_splits (Array.getElem?_eq_getElem hlt)
  obtain ⟨hsplit, hrest⟩ := hfront.eq_append_lastLine
  have hbytes := congrArg utf8Length hsplit
  rw [utf8Length_append] at hbytes hlength
  have hoffset : utf8Length a - (utf8Length front).toUInt32.toNat = utf8Length (lastLine a) := by
    have hfits : utf8Length front < 2 ^ 32 := by omega
    rw [UInt32.toNat_ofNat_of_lt' hfits]
    omega
  simp only [position, hindex, Array.getD_eq_getD_getElem?, Array.getElem?_eq_getElem hlt,
    Option.getD_some, hfront.offset_eq, hoffset, hrest, charsWithin_append]
  rfl

/-- **Of two boundaries the one further on has the later position.** -/
theorem position_lt {a b m : List Char} (hm : m ≠ [])
    (hlength : utf8Length (a ++ m ++ b) < 2 ^ 32 - 1) :
    (ofText (a ++ m ++ b)).position (utf8Length a) <
      (ofText (a ++ m ++ b)).position (utf8Length (a ++ m)) := by
  have hfirst : (ofText (a ++ m ++ b)).position (utf8Length a) = positionAfter a := by
    rw [List.append_assoc] at hlength ⊢
    exact position_utf8Length (by omega)
  have hsecond : (ofText (a ++ m ++ b)).position (utf8Length (a ++ m)) = positionAfter (a ++ m) :=
    position_utf8Length (by omega)
  rw [utf8Length_append] at hlength
  rw [hfirst, hsecond]
  exact positionAfter_lt hm (by omega)

end LineMap

end TarnLang
