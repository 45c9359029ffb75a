/-
  TarnLang/Proofs/Diagnostic/Distance.lean
  ========================================
  **The distance that rows compute is the least number of edits.**  An edit puts a character into a
  text, takes one out or replaces one, wherever it stands.  `levenshtein` is the usual recursion on
  two texts; no row of edits from one to the other is shorter than its value, and one is as long.

  Rows of distances grow behind, by the last characters of two prefixes, and the recursion takes the
  texts apart in front.  It is therefore met by the texts read backwards: an entry of a row is the
  distance of two prefixes that are reversed.  Edits can be made on reversed texts as well, so
  the distance does not change.
-/
import Mathlib.Order.Bounds.Basic
import TarnLang.Diagnostic.Suggestion

namespace TarnLang

/-! ### Edits -/

/-- One edit of a text. -/
inductive Edit : List Char → List Char → Prop
  | insert (front behind : List Char) (c : Char) : Edit (front ++ behind) (front ++ c :: behind)
  | delete (front behind : List Char) (c : Char) : Edit (front ++ c :: behind) (front ++ behind)
  | replace (front behind : List Char) (c d : Char) :
    Edit (front ++ c :: behind) (front ++ d :: behind)

/-- A number of edits in a row. -/
inductive Edits : Nat → List Char → List Char → Prop
  | none (a : List Char) : Edits 0 a a
  | more {n : Nat} {a b c : List Char} : Edit a b → Edits n b c → Edits (n + 1) a c

/-- The distance of two texts, by their first characters. -/
def levenshtein : List Char → List Char → Nat
  | [], b => b.length
  | a, [] => a.length
  | c :: a, d :: b =>
    min (min (levenshtein a (d :: b) + 1) (levenshtein (c :: a) b + 1))
      (levenshtein a b + if c = d then 0 else 1)

variable {a b p q target : List Char} {c d : Char} {n : Nat}

theorem Edit.cons (h : Edit a b) (c : Char) : Edit (c :: a) (c :: b) := by
  cases h with
  | insert front behind d => exact .insert (c :: front) behind d
  | delete front behind d => exact .delete (c :: front) behind d
  | replace front behind d e => exact .replace (c :: front) behind d e

theorem Edit.reverse (h : Edit a b) : Edit a.reverse b.reverse := by
  cases h with
  | insert front behind d => simpa using Edit.insert behind.reverse front.reverse d
  | delete front behind d => simpa using Edit.delete behind.reverse front.reverse d
  | replace front behind d e => simpa using Edit.replace behind.reverse front.reverse d e

theorem Edits.cons (h : Edits n a b) (c : Char) : Edits n (c :: a) (c :: b) := by
  induction h with
  | none a => exact .none _
  | more h _ ih => exact .more (h.cons c) ih

theorem Edits.reverse (h : Edits n a b) : Edits n a.reverse b.reverse := by
  induction h with
  | none a => exact .none _
  | more h _ ih => exact .more h.reverse ih

theorem Edits.min {m : Nat} (h : Edits m a b) (h' : Edits n a b) : Edits (min m n) a b := by
  rcases Nat.le_total m n with hle | hle
  · rwa [Nat.min_eq_left hle]
  · rwa [Nat.min_eq_right hle]

/-! ### The least number of edits -/

@[simp] theorem levenshtein_nil_left (b : List Char) : levenshtein [] b = b.length := by
  rw [levenshtein]

@[simp] theorem levenshtein_nil_right (a : List Char) : levenshtein a [] = a.length := by
  cases a with
  | nil => simp
  | cons c a => simp [levenshtein]

theorem levenshtein_cons_cons (c d : Char) (a b : List Char) :
    levenshtein (c :: a) (d :: b) =
      min (min (levenshtein a (d :: b) + 1) (levenshtein (c :: a) b + 1))
        (levenshtein a b + if c = d then 0 else 1) := by
  rw [levenshtein]

/-- The distance can be reached. -/
theorem edits_levenshtein (a b : List Char) : Edits (levenshtein a b) a b := by
  fun_induction levenshtein a b with
  | case1 b =>
    induction b with
    | nil => exact .none _
    | cons d b ih => exact .more (.insert [] [] d) (ih.cons d)
  | case2 a hne =>
    clear hne
    induction a with
    | nil => exact .none _
    | cons c a ih => exact .more (.delete [] a c) ih
  | case3 c a d b ihdelete ihinsert ihreplace =>
    have hdelete : Edits (levenshtein a (d :: b) + 1) (c :: a) (d :: b) :=
      .more (.delete [] a c) ihdelete
    have hinsert : Edits (levenshtein (c :: a) b + 1) (c :: a) (d :: b) :=
      .more (.insert [] (c :: a) d) (ihinsert.cons d)
    have hreplace : Edits (levenshtein a b + if c = d then 0 else 1) (c :: a) (d :: b) := by
      split
      · rename_i hsame
        exact hsame ▸ ihreplace.cons c
      · exact .more (.replace [] a c d) (ihreplace.cons d)
    exact (hdelete.min hinsert).min hreplace

theorem levenshtein_cons_left_le (c : Char) (a target : List Char) :
    levenshtein (c :: a) target ≤ levenshtein a target + 1 := by
  cases target with
  | nil => simp
  | cons d target =>
    rw [levenshtein_cons_cons]
    omega

theorem levenshtein_cons_right_le (d : Char) (a target : List Char) :
    levenshtein a (d :: target) ≤ levenshtein a target + 1 := by
  cases a with
  | nil => simp
  | cons c a =>
    rw [levenshtein_cons_cons]
    omega

theorem levenshtein_le_cons_left (c : Char) (a target : List Char) :
    levenshtein a target ≤ levenshtein (c :: a) target + 1 := by
  induction target with
  | nil =>
    simp only [levenshtein_nil_right, List.length_cons]
    omega
  | cons d target ih =>
    have hlonger := levenshtein_cons_right_le d a target
    rw [levenshtein_cons_cons]
    omega

theorem levenshtein_replace_le (c d : Char) (a target : List Char) :
    levenshtein (c :: a) target ≤ levenshtein (d :: a) target + 1 := by
  induction target with
  | nil => simp
  | cons e target ih =>
    rw [levenshtein_cons_cons, levenshtein_cons_cons]
    split <;> split <;> omega

/-- One more character in front of two texts leaves them as near as they are. -/
theorem levenshtein_cons_congr (h : ∀ target, levenshtein a target ≤ levenshtein b target + 1)
    (c : Char) (target : List Char) :
    levenshtein (c :: a) target ≤ levenshtein (c :: b) target + 1 := by
  induction target with
  | nil => simpa using h []
  | cons d target ih =>
    have hdelete := h (d :: target)
    have hreplace := h target
    rw [levenshtein_cons_cons, levenshtein_cons_cons]
    omega

/-- **An edit changes distances by one at most.** -/
theorem levenshtein_le_of_edit (h : Edit a b) (target : List Char) :
    levenshtein a target ≤ levenshtein b target + 1 := by
  cases h with
  | insert front behind c =>
    induction front generalizing target with
    | nil => exact levenshtein_le_cons_left c behind target
    | cons d front ih => exact levenshtein_cons_congr ih d target
  | delete front behind c =>
    induction front generalizing target with
    | nil => exact levenshtein_cons_left_le c behind target
    | cons d front ih => exact levenshtein_cons_congr ih d target
  | replace front behind c d =>
    induction front generalizing target with
    | nil => exact levenshtein_replace_le c d behind target
    | cons e front ih => exact levenshtein_cons_congr ih e target

theorem levenshtein_self (a : List Char) : levenshtein a a = 0 := by
  induction a with
  | nil => simp
  | cons c a ih => simp [levenshtein_cons_cons, ih]

/-- No row of edits is shorter than the distance. -/
theorem levenshtein_le_of_edits (h : Edits n a b) : levenshtein a b ≤ n := by
  induction h with
  | none a => exact Nat.le_of_eq (levenshtein_self a)
  | more h _ ih => exact Nat.le_trans (levenshtein_le_of_edit h _) (Nat.succ_le_succ ih)

/-- **The distance is the least number of edits.** -/
theorem isLeast_levenshtein (a b : List Char) :
    IsLeast {n | Edits n a b} (levenshtein a b) :=
  ⟨edits_levenshtein a b, fun _ h => levenshtein_le_of_edits h⟩

theorem levenshtein_reverse_le (a b : List Char) :
    levenshtein a.reverse b.reverse ≤ levenshtein a b :=
  levenshtein_le_of_edits (edits_levenshtein a b).reverse

/-- Texts read backwards are as far apart. -/
theorem levenshtein_reverse (a b : List Char) :
    levenshtein a.reverse b.reverse = levenshtein a b := by
  have hback := levenshtein_reverse_le a.reverse b.reverse
  rw [List.reverse_reverse, List.reverse_reverse] at hback
  exact Nat.le_antisymm (levenshtein_reverse_le a b) hback

/-- Each edit changes the length of a text by one at most. -/
theorem length_le_of_edits (h : Edits n a b) :
    a.length ≤ b.length + n ∧ b.length ≤ a.length + n := by
  induction h with
  | none a => exact ⟨Nat.le_refl _, Nat.le_refl _⟩
  | more h _ ih =>
    cases h <;> simp only [List.length_append, List.length_cons] at ih ⊢ <;> omega

/-! ### Rows -/

/-- Distances of `p` to the prefixes of a target that are longer than `q`; `behind` is the target
    behind `q`, and both prefixes are read backwards. -/
def rowBehind (p q : List Char) : List Char → List Nat
  | [] => []
  | d :: behind => levenshtein p (d :: q) :: rowBehind p (d :: q) behind

/-- Distances of `p` to all prefixes of a target. -/
def rowOf (p target : List Char) : List Nat := levenshtein p [] :: rowBehind p [] target

theorem distanceRowRest_eq (c : Char) (p q behind : List Char) :
    distanceRowRest c (levenshtein (c :: p) q) (levenshtein p q) behind (rowBehind p q behind) =
      rowBehind (c :: p) q behind := by
  induction behind generalizing q with
  | nil => rfl
  | cons d behind ih =>
    simp only [rowBehind, distanceRowRest, ← levenshtein_cons_cons, ih]

/-- The row below is that of a prefix with one more character. -/
theorem distanceRow_rowOf (c : Char) (p target : List Char) :
    distanceRow c target (rowOf p target) = rowOf (c :: p) target := by
  have hrest := distanceRowRest_eq c p [] target
  rw [levenshtein_nil_right, levenshtein_nil_right, List.length_cons] at hrest
  simp [rowOf, distanceRow, hrest]

theorem distanceRows_rowOf (p a target : List Char) :
    distanceRows target a (rowOf p target) = rowOf (a.reverse ++ p) target := by
  induction a generalizing p with
  | nil => rfl
  | cons c a ih =>
    rw [distanceRows, distanceRow_rowOf, ih, List.reverse_cons, List.append_assoc]
    rfl

/-- The first row counts up. -/
theorem range_eq_rowOf (target : List Char) : List.range (target.length + 1) = rowOf [] target := by
  have hbehind : ∀ q behind : List Char,
      rowBehind [] q behind = List.range' (q.length + 1) behind.length := by
    intro q behind
    induction behind generalizing q with
    | nil => rfl
    | cons d behind ih => simp [rowBehind, ih, List.range'_succ]
  simp [rowOf, hbehind, List.range_eq_range', List.range'_succ]

/-- The last entry of a row is the distance to the whole target. -/
theorem getLast?_rowOf (p target : List Char) :
    (rowOf p target).getLast? = some (levenshtein p target.reverse) := by
  have hlast : ∀ q behind : List Char, (levenshtein p q :: rowBehind p q behind).getLast? =
      some (levenshtein p (behind.reverse ++ q)) := by
    intro q behind
    induction behind generalizing q with
    | nil => rfl
    | cons d behind ih => simp [rowBehind, ih]
  simpa [rowOf] using hlast [] target

/-- **Rows compute the distance.** -/
theorem editDistance_eq (a b : List Char) : editDistance a b = levenshtein a b := by
  rw [editDistance, range_eq_rowOf, distanceRows_rowOf, getLast?_rowOf, List.append_nil,
    levenshtein_reverse]
  rfl

end TarnLang
