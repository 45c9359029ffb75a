/-
  TarnLang/Proofs/Parser/Locality.lean
  ====================================
  **Where parsers agree.**  Two parsers agree up to `n` when they give the same wherever fewer
  than `n` tokens are left.  Since parsers go on and never back, what is put together from
  parsers that agree agrees; and behind a part that reads something, agreement where one
  token less is left is enough.
-/
import TarnLang.Proofs.Parser.Progress

namespace TarnLang

variable {ts : Array Token} {α β : Type} {n : Nat}

theorem Place.left_le_left {i j : Place ts} (h : i ≤ j) : j.left ≤ i.left := by
  have hij : i.val ≤ j.val := h
  simp only [left]
  omega

theorem Place.left_lt (i : Place ts) : i.left < ts.size + 1 := by
  simp only [left]
  omega

namespace Parser

/-- Two parsers give the same wherever fewer than `n` tokens are left. -/
def Agree (n : Nat) (p q : Parser ts α) : Prop := ∀ i, i.left < n → p i = q i

namespace Agree

theorem refl (p : Parser ts α) : Agree n p p := fun _ _ => rfl

theorem zero {p q : Parser ts α} : Agree 0 p q := fun i hi => absurd hi (Nat.not_lt_zero i.left)

theorem mono {m : Nat} {p q : Parser ts α} (h : Agree n p q) (hm : m ≤ n) : Agree m p q :=
  fun i hi => h i (Nat.lt_of_lt_of_le hi hm)

/-- Every place has at most as many tokens left as there are. -/
theorem eq {p q : Parser ts α} (h : Agree (ts.size + 1) p q) : p = q := by
  funext i
  exact h i i.left_lt

/-! ### Single steps -/

theorem bind {p q : Parser ts α} {f g : α → Parser ts β} (h : Agree n p q) (hp : p.Onward)
    (hf : ∀ x, Agree n (f x) (g x)) : Agree n (p >>= f) (q >>= g) := by
  intro i hi
  show Parser.bind p f i = Parser.bind q g i
  simp only [Parser.bind, ← h i hi]
  cases hx : p i with
  | error e => rfl
  | ok r =>
    obtain ⟨x, j⟩ := r
    exact hf x j (Nat.lt_of_le_of_lt (Place.left_le_left (hp.le hx)) hi)

/-- Where the first parts agree and the rest is the same, it does not matter where the first
    part ends. -/
theorem bind_same {p q : Parser ts α} (h : Agree n p q) (f : α → Parser ts β) :
    Agree n (p >>= f) (q >>= f) := by
  intro i hi
  show Parser.bind p f i = Parser.bind q f i
  simp only [Parser.bind, h i hi]

/-- Behind a first part that reads something, fewer tokens are left. -/
theorem step {p : Parser ts α} {f g : α → Parser ts β}
    (hp : ∀ {i j x}, p i = .ok (x, j) → i < j) (hf : ∀ x, Agree n (f x) (g x)) :
    Agree (n + 1) (p >>= f) (p >>= g) := by
  intro i hi
  show Parser.bind p f i = Parser.bind p g i
  simp only [Parser.bind]
  cases hx : p i with
  | error e => rfl
  | ok r =>
    obtain ⟨x, j⟩ := r
    have hlt := Place.left_lt_left (hp hx)
    exact hf x j (by omega)

theorem keyword {k : TokenKind} {f g : Token → Parser ts α} (hf : ∀ t, Agree n (f t) (g t)) :
    Agree (n + 1) (token k >>= f) (token k >>= g) :=
  step (fun h => (token_ok.mp h).lt) hf

theorem token_bind {k : TokenKind} {f g : Token → Parser ts α} (hf : ∀ t, Agree n (f t) (g t)) :
    Agree n (token k >>= f) (token k >>= g) :=
  (refl _).bind (.token k) hf

theorem map {p q : Parser ts α} (h : Agree n p q) (f : α → β) : Agree n (f <$> p) (f <$> q) :=
  h.bind_same _

theorem spanned {p q : Parser ts α} (h : Agree n p q) : Agree n (spanned p) (spanned q) := by
  intro i hi
  simp only [Parser.spanned, h i hi]

theorem withSpan {p q : Parser ts (Span → α)} (h : Agree n p q) :
    Agree n (withSpan p) (withSpan q) :=
  h.spanned.bind_same _

/-- A part between two tokens. -/
theorem surrounded {k k' : TokenKind} {p q : Parser ts α} (h : Agree n p q) :
    Agree (n + 1) (surrounded (token k) (token k') p) (surrounded (token k) (token k') q) :=
  keyword fun _ => h.bind_same _

/-! ### Choices -/

theorem orElse {p p' q q' : Parser ts α} (h : Agree n p p') (h' : Agree n q q') :
    Agree n (p <|> q) (p' <|> q') := by
  intro i hi
  show Parser.orElse p q i = Parser.orElse p' q' i
  simp only [Parser.orElse, h i hi, h' i hi]

theorem named {p q : Parser ts α} (h : Agree n p q) (construct : String) :
    Agree n (named construct p) (named construct q) := by
  intro i hi
  simp only [Parser.named, h i hi]

theorem optional [Absent α] {p q : Parser ts α} (h : Agree n p q) :
    Agree n (optional p) (optional q) := by
  intro i hi
  simp only [Parser.optional, h i hi]

/-! ### Repetitions -/

theorem manyFrom {item item' : Parser ts α} (h : Agree n item item') (i : Place ts)
    (hi : i.left < n) : manyFrom item i = manyFrom item' i := by
  fun_induction Parser.manyFrom item i with
  | case1 i x j hx hij ys k hrest ih =>
    have hj := Nat.lt_trans (Place.left_lt_left hij) hi
    rw [Parser.manyFrom, ← h i hi, hx]
    simp only [if_pos hij, ← ih hj, hrest]
  | case2 i x j hx hij =>
    rw [Parser.manyFrom, ← h i hi, hx]
    simp only [if_neg hij]
  | case3 i e he => rw [Parser.manyFrom, ← h i hi, he]

theorem many {item item' : Parser ts α} (h : Agree n item item') :
    Agree n (many item) (many item') := by
  intro i hi
  simp only [Parser.many, h.manyFrom i hi]

theorem manyUntil {item item' : Parser ts α} (h : Agree n item item') (terminator : Parser ts β) :
    Agree n (manyUntil item terminator) (manyUntil item' terminator) := by
  intro i hi
  fun_induction Parser.manyUntil item terminator i with
  | case1 i x j hx hij ys last k hrest ih =>
    have hj := Nat.lt_trans (Place.left_lt_left hij) hi
    rw [Parser.manyUntil, ← h i hi, hx]
    simp only [if_pos hij, ← ih hj, hrest]
  | case2 i x j hx hij e he ih =>
    have hj := Nat.lt_trans (Place.left_lt_left hij) hi
    rw [Parser.manyUntil, ← h i hi, hx]
    simp only [if_pos hij, ← ih hj, he]
  | case3 i x j hx hij last k hlast =>
    rw [Parser.manyUntil, ← h i hi, hx]
    simp only [if_neg hij, hlast]
  | case4 i x j hx hij e he =>
    rw [Parser.manyUntil, ← h i hi, hx]
    simp only [if_neg hij, he]
  | case5 i e he last k hlast => rw [Parser.manyUntil, ← h i hi, he, hlast]
  | case6 i e he e' he' => rw [Parser.manyUntil, ← h i hi, he, he']

theorem separated {item item' : Parser ts α} (h : Agree n item item') (separator : Parser ts β) :
    Agree n (separated separator item) (separated separator item') := by
  have hturn : ∀ i : Place ts, i.left < n →
      separatedTurn separator item i = separatedTurn separator item' i := by
    intro i hi
    simp only [separatedTurn, h i hi]
  intro i hi
  fun_induction Parser.separated separator item i with
  | case1 i x j hx => rw [Parser.separated, ← hturn i hi, hx]
  | case2 i x k hx hik ys j hrest ih =>
    have hk := Nat.lt_trans (Place.left_lt_left hik) hi
    rw [Parser.separated, ← hturn i hi, hx]
    simp only [if_pos hik, ← ih hk, hrest]
  | case3 i x k hx hik e he ih =>
    have hk := Nat.lt_trans (Place.left_lt_left hik) hi
    rw [Parser.separated, ← hturn i hi, hx]
    simp only [if_pos hik, ← ih hk, he]
  | case4 i x k hx hik =>
    rw [Parser.separated, ← hturn i hi, hx]
    simp only [if_neg hik]
  | case5 i e he => rw [Parser.separated, ← hturn i hi, he]

end Agree

end Parser

end TarnLang
