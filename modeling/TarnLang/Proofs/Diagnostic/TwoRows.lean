/-
  TarnLang/Proofs/Diagnostic/TwoRows.lean
  =======================================
  **Two rows are enough.**  Of all rows of distances only the last one is needed for the next, so
  two buffers will do: one holds the row above, the other is filled from the left, over the entries
  of a row that is no longer needed, and then they change places.

  `twoRowDistance?` reads and writes both buffers by index and gives up at an index that a buffer
  does not have.  It never does, and what it finds is the distance: left of the entry that is
  written next the buffer holds the new row, right of it whatever was there, and that is never read.
-/
import TarnLang.Proofs.Diagnostic.Distance

namespace TarnLang

/-! ### Buffers -/

/-- Writes an entry of a row, if the row has one there. -/
def entrySet? (row : Array Nat) (i entry : Nat) : Option (Array Nat) :=
  if h : i < row.size then some (row.set i entry) else none

/-- Fills a row behind its entry `j`, below the row `above`. -/
def fillRow? (above : Array Nat) (c : Char) (row : Array Nat) (j : Nat) :
    List Char → Option (Array Nat)
  | [] => some row
  | d :: ds => do
    let up ← above[j + 1]?
    let left ← row[j]?
    let diagonal ← above[j]?
    let row ← entrySet? row (j + 1)
      (min (min (up + 1) (left + 1)) (diagonal + if c = d then 0 else 1))
    fillRow? above c row (j + 1) ds

/-- Fills one row for each character, from the number `i` on, and gives the last.  The buffers
    change places behind each row. -/
def fillRows? (target : List Char) (i : Nat) (above spare : Array Nat) :
    List Char → Option (Array Nat)
  | [] => some above
  | c :: cs => do
    let row ← entrySet? spare 0 (i + 1)
    let row ← fillRow? above c row 0 target
    fillRows? target (i + 1) row above cs

/-- The distance of two texts, in two buffers.  An empty text is as far away as the other is
    long. -/
def twoRowDistance? (a b : List Char) : Option Nat :=
  if a = [] then some b.length
  else if b = [] then some a.length
  else do
    let last ← fillRows? b 0 (Array.range (b.length + 1)) (Array.replicate (b.length + 1) 0) a
    last[b.length]?

variable {above row spare : Array Nat} {front front' ups stale : List Nat} {up left i j : Nat}
variable {c : Char} {target : List Char}

/-! ### Entries -/

/-- The entry behind a row's first part. -/
theorem getElem?_of_toList (h : row.toList = front ++ left :: stale) (hj : front.length = j) :
    row[j]? = some left := by
  rw [← Array.getElem?_toList, h, ← hj, List.getElem?_append_right (Nat.le_refl _), Nat.sub_self]
  rfl

theorem entrySet?_of_toList (h : row.toList = front ++ left :: stale) (hj : front.length = j)
    (entry : Nat) :
    ∃ row', entrySet? row j entry = some row' ∧ row'.toList = front ++ entry :: stale := by
  have hsize : j < row.size := by
    rw [← Array.length_toList, h, List.length_append, List.length_cons]
    omega
  refine ⟨row.set j entry, dif_pos hsize, ?_⟩
  rw [Array.toList_set, h, ← hj, List.set_append_right _ _ (Nat.le_refl _), Nat.sub_self,
    List.set_cons_zero]

/-! ### Rows -/

theorem length_distanceRowRest (c : Char) (left up : Nat) :
    ∀ {ds : List Char} {ups : List Nat}, ups.length = ds.length →
      (distanceRowRest c left up ds ups).length = ds.length
  | [], _, _ => rfl
  | d :: ds, up' :: ups, h => by
    rw [distanceRowRest, List.length_cons, List.length_cons,
      length_distanceRowRest c _ up' (Nat.succ.inj h)]

/-- **A row is filled from the left**, whatever stood right of the entry that it is filled from. -/
theorem fillRow?_eq {ds : List Char} (habove : above.toList = front ++ up :: ups)
    (hrow : row.toList = front' ++ left :: stale) (hj : front.length = j) (hj' : front'.length = j)
    (hups : ups.length = ds.length) (hstale : stale.length = ds.length) :
    ∃ row', fillRow? above c row j ds = some row' ∧
      row'.toList = front' ++ left :: distanceRowRest c left up ds ups := by
  induction ds generalizing row front front' left up ups stale j with
  | nil =>
    obtain rfl := List.eq_nil_of_length_eq_zero hstale
    refine ⟨row, rfl, ?_⟩
    rw [hrow, distanceRowRest]
    simp
  | cons d ds ih =>
    obtain ⟨up', ups, rfl⟩ := List.exists_cons_of_length_eq_add_one hups
    obtain ⟨old, stale, rfl⟩ := List.exists_cons_of_length_eq_add_one hstale
    have habove' : above.toList = (front ++ [up]) ++ up' :: ups := by simp [habove]
    have hrow' : row.toList = (front' ++ [left]) ++ old :: stale := by simp [hrow]
    have hnext : (front ++ [up]).length = j + 1 := by simp [hj]
    have hnext' : (front' ++ [left]).length = j + 1 := by simp [hj']
    let entry := min (min (up' + 1) (left + 1)) (up + if c = d then 0 else 1)
    obtain ⟨row₁, hwrite, hrow₁⟩ := entrySet?_of_toList hrow' hnext' entry
    obtain ⟨row₂, hfill, hrow₂⟩ :=
      ih habove' hrow₁ hnext hnext' (Nat.succ.inj hups) (Nat.succ.inj hstale)
    refine ⟨row₂, ?_, ?_⟩
    · rw [fillRow?, getElem?_of_toList habove' hnext, getElem?_of_toList hrow hj',
        getElem?_of_toList habove hj]
      show (entrySet? row (j + 1) entry >>= fun row => fillRow? above c row (j + 1) ds) = _
      rw [hwrite]
      exact hfill
    · rw [hrow₂, distanceRowRest, List.append_assoc]
      rfl

/-- **Row by row the buffers hold the rows of distances.**  The number of a row is its first
    entry. -/
theorem fillRows?_eq (hup : above.toList = i :: ups) (hups : ups.length = target.length)
    (hspare : spare.size = target.length + 1) (cs : List Char) :
    ∃ last, fillRows? target i above spare cs = some last ∧
      last.toList = distanceRows target cs above.toList ∧ last.size = target.length + 1 := by
  induction cs generalizing above spare i ups with
  | nil =>
    refine ⟨above, rfl, rfl, ?_⟩
    rw [← Array.length_toList, hup, List.length_cons, hups]
  | cons c cs ih =>
    obtain ⟨old, stale, hstale⟩ := List.exists_cons_of_length_eq_add_one
      (Array.length_toList.trans hspare)
    have hlength : stale.length = target.length := by
      rw [← Array.length_toList, hstale] at hspare
      exact Nat.succ.inj hspare
    have hspare' : spare.toList = [] ++ old :: stale := hstale
    have hup' : above.toList = [] ++ i :: ups := hup
    obtain ⟨row₁, hwrite, hrow₁⟩ := entrySet?_of_toList hspare' List.length_nil (i + 1)
    obtain ⟨row₂, hfill, hrow₂⟩ :=
      fillRow?_eq (c := c) hup' hrow₁ List.length_nil List.length_nil hups hlength
    have hrow : row₂.toList = distanceRow c target above.toList := by
      rw [hrow₂, hup, distanceRow]
      rfl
    have hsize : above.size = target.length + 1 := by
      rw [← Array.length_toList, hup, List.length_cons, hups]
    obtain ⟨last, hlast, hrows, hlastSize⟩ :=
      ih hrow₂ (length_distanceRowRest c (i + 1) i hups) hsize
    refine ⟨last, ?_, ?_, hlastSize⟩
    · rw [fillRows?, hwrite]
      show (fillRow? above c row₁ 0 target >>= fun row => fillRows? target (i + 1) row above cs) = _
      rw [hfill]
      exact hlast
    · rw [hrows, hrow, distanceRows]

/-- Both buffers have every entry that is asked for, and the last one of the last row is the
    distance. -/
theorem twoRowDistance?_eq (a b : List Char) : twoRowDistance? a b = some (editDistance a b) := by
  rw [twoRowDistance?]
  split
  · rename_i hnil
    rw [editDistance_eq, hnil, levenshtein_nil_left]
  · split
    · rename_i hnil
      rw [editDistance_eq, hnil, levenshtein_nil_right]
    · have hfirst : (Array.range (b.length + 1)).toList = 0 :: List.range' 1 b.length := by
        rw [Array.toList_range, List.range_eq_range', List.range'_succ]
      obtain ⟨last, hlast, hrows, hsize⟩ :=
        fillRows?_eq hfirst (List.length_range' : _ = b.length)
          (Array.size_replicate (n := b.length + 1) (v := 0)) a
      rw [Array.toList_range] at hrows
      have hentry : last[b.length]? = (distanceRows b a (List.range (b.length + 1))).getLast? := by
        have hlength : last.toList.length = b.length + 1 := hsize
        rw [← hrows, List.getLast?_eq_getElem?, hlength, Nat.add_sub_cancel, Array.getElem?_toList]
      rw [range_eq_rowOf, distanceRows_rowOf, getLast?_rowOf, List.append_nil,
        levenshtein_reverse] at hentry
      rw [hlast, editDistance_eq]
      exact hentry

/-- **Two rows compute the least number of edits.**  No index is out of bounds, and what comes out
    for two strings is the distance that names are compared with: that of the usual recursion on
    their characters, and the least number of insertions, deletions and replacements of a character
    that turn one into the other. -/
theorem two_rows_compute_distance (a b : String) :
    twoRowDistance? a.toList b.toList = some (editDistance a.toList b.toList) ∧
      editDistance a.toList b.toList = levenshtein a.toList b.toList ∧
      IsLeast {n | Edits n a.toList b.toList} (editDistance a.toList b.toList) := by
  have hdistance := editDistance_eq a.toList b.toList
  refine ⟨twoRowDistance?_eq _ _, hdistance, ?_⟩
  rw [hdistance]
  exact isLeast_levenshtein _ _

example : twoRowDistance? "kitten".toList "sitting".toList = some 3 := by decide +kernel

end TarnLang
