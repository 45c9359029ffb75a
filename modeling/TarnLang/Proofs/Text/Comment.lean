/-
  TarnLang/Proofs/Text/Comment.lean
  =================================
  **Comments nest.**  What follows the opening of a comment is a body: a close, or a comment with a
  body behind it, or a character with a body behind it where neither an opening nor a close starts.
  `CommentBody` is this grammar.  It has no depth in it, and bodies are told apart from what follows
  them by nothing but their own shape.

  A comment is read with a depth and no grammar.  The two meet in `Bodies`: with `k` comments around
  it the rest of a comment is `k + 1` bodies, one behind the other.  So the close that is found ends
  the body, and where there is no body no close is found.

  The depth is a signed word, and so this is the whole story only as long as fewer than `2 ^ 31`
  comments are open at once.  The opening that is one too many makes the depth negative, and a
  comment ends right behind it, whatever follows.

  `skipComment` counts in bytes, two for each opening and close.  It comes to the same place, and so
  the offset behind a comment stands between two characters.
-/
import TarnLang.Proofs.Text.Coverage
import TarnLang.Proofs.Text.ErrorLimit

namespace TarnLang

/-! ### The grammar of comments -/

/-- An opening or a close starts here. -/
def MarkAt (cs : List Char) : Prop := ['/', '*'] <+: cs ∨ ['*', '/'] <+: cs

/-- What follows the opening of a comment, up to its close. -/
inductive CommentBody : List Char → Prop
  | close : CommentBody ['*', '/']
  | comment {inner rest} : CommentBody inner → CommentBody rest →
    CommentBody ('/' :: '*' :: (inner ++ rest))
  | char {c rest} : ¬ MarkAt (c :: rest) → CommentBody rest → CommentBody (c :: rest)

variable {c : Char} {cs w body behind r : List Char} {k read bytes m : Nat} {depth : Int32}

theorem markAt_iff : MarkAt (c :: cs) ↔
    (c = '/' ∧ cs.head? = some '*') ∨ (c = '*' ∧ cs.head? = some '/') := by
  cases cs with
  | nil => simp [MarkAt, List.prefix_cons_iff]
  | cons d cs => simp [MarkAt, List.cons_prefix_cons, eq_comm]

/-- What stands behind a body is of no account for the marks in it. -/
theorem CommentBody.head?_append (h : CommentBody body) (behind : List Char) :
    (body ++ behind).head? = body.head? := by
  cases h <;> rfl

theorem CommentBody.markAt_append (h : CommentBody body) (behind : List Char) :
    MarkAt (c :: (body ++ behind)) ↔ MarkAt (c :: body) := by
  rw [markAt_iff, markAt_iff, h.head?_append]

/-- A character where no mark starts is neither half of one. -/
theorem not_opening_of_not_markAt (h : ¬ MarkAt (c :: cs)) (tail : List Char) (hc : c = '/')
    (hcs : cs = '*' :: tail) : False :=
  h (.inl ⟨tail, by rw [hc, hcs]; rfl⟩)

theorem not_close_of_not_markAt (h : ¬ MarkAt (c :: cs)) (tail : List Char) (hc : c = '*')
    (hcs : cs = '/' :: tail) : False :=
  h (.inr ⟨tail, by rw [hc, hcs]; rfl⟩)

theorem CommentBody.markAt_of_append {tail : List Char} (h : CommentBody body)
    (heq : c :: (body ++ behind) = tail) (hmark : MarkAt tail) : MarkAt (c :: body) := by
  rwa [← h.markAt_append behind, heq]

/-- **Of the prefixes of a text one is a body at most.** -/
theorem CommentBody.unique (h : CommentBody body) {body' behind' : List Char}
    (h' : CommentBody body') (heq : body ++ behind = body' ++ behind') : body' = body := by
  induction h generalizing body' behind behind' with
  | close =>
    cases h' with
    | close => rfl
    | comment => cases heq
    | char hmark hrest =>
      exact absurd (hrest.markAt_of_append heq.symm (.inr ⟨behind, rfl⟩)) hmark
  | @comment inner rest _ _ ihinner ihrest =>
    cases h' with
    | close => cases heq
    | @comment inner' rest' hinner' hrest' =>
      simp only [List.cons_append, List.append_assoc, List.cons.injEq, true_and] at heq
      obtain rfl := ihinner hinner' heq
      rw [ihrest hrest' (List.append_cancel_left heq)]
    | char hmark hrest =>
      exact absurd (hrest.markAt_of_append heq.symm (.inl ⟨_, rfl⟩)) hmark
  | @char c rest hmark hrest ih =>
    cases h' with
    | close => exact absurd (hrest.markAt_of_append heq (.inr ⟨_, rfl⟩)) hmark
    | comment => exact absurd (hrest.markAt_of_append heq (.inl ⟨_, rfl⟩)) hmark
    | char hmark' hrest' =>
      obtain ⟨rfl, hrests⟩ := List.cons.inj heq
      rw [ih hrest' hrests]

/-! ### Closes that are found -/

/-- Behind a body no more comments are open at once than with it in front. -/
theorem CommentBody.mostOpen_le (h : CommentBody body) (k : Nat) (behind : List Char) :
    mostOpen k behind ≤ mostOpen (k + 1) (body ++ behind) := by
  induction h generalizing k behind with
  | close => exact Nat.le_max_right ..
  | @comment inner rest _ _ ihinner ihrest =>
    calc mostOpen k behind
        ≤ mostOpen (k + 1) (rest ++ behind) := ihrest ..
      _ ≤ mostOpen (k + 2) (inner ++ (rest ++ behind)) := ihinner ..
      _ = mostOpen (k + 1) ('/' :: '*' :: (inner ++ rest) ++ behind) := by
        rw [← List.append_assoc]
        rfl
  | @char c rest hmark hrest ih =>
    have hmark' : ¬ MarkAt (c :: (rest ++ behind)) := by
      rwa [hrest.markAt_append]
    rw [List.cons_append, mostOpen.eq_5 _ _ _ (not_opening_of_not_markAt hmark')
      (not_close_of_not_markAt hmark')]
    exact ih ..

/-- **A body is read up to its close**, whatever stands around it and behind it, as long as the
    depth can count the comments that are open. -/
theorem CommentBody.commentEnd_append (h : CommentBody body) (read : Nat) {k : Nat}
    {behind : List Char} (hroom : mostOpen (k + 1) (body ++ behind) < 2 ^ 31) :
    commentEnd (Int32.ofNat (k + 1)) read (body ++ behind) =
      commentEnd (Int32.ofNat k) (read + body.length) behind := by
  have hpos : 0 < Int32.ofNat (k + 1) :=
    zero_lt_ofNat_succ (Nat.lt_of_le_of_lt (le_mostOpen ..) hroom)
  induction h generalizing k read behind with
  | close =>
    rw [← ofNat_succ_sub_one k]
    exact commentEnd_close hpos
  | @comment inner rest _ hrest ihinner ihrest =>
    have hinner : mostOpen (k + 2) (inner ++ (rest ++ behind)) < 2 ^ 31 := by
      rw [← List.append_assoc]
      exact hroom
    have hbehind : mostOpen (k + 1) (rest ++ behind) < 2 ^ 31 :=
      Nat.lt_of_le_of_lt (CommentBody.mostOpen_le ‹_› ..) hinner
    have hdeeper : 0 < Int32.ofNat (k + 2) :=
      zero_lt_ofNat_succ (Nat.lt_of_le_of_lt (le_mostOpen ..) hinner)
    have hread : read + 2 + inner.length + rest.length =
        read + ('/' :: '*' :: (inner ++ rest)).length := by
      simp only [List.length_cons, List.length_append]
      omega
    calc commentEnd (.ofNat (k + 1)) read ('/' :: '*' :: (inner ++ rest) ++ behind)
        = commentEnd (.ofNat (k + 2)) (read + 2) (inner ++ (rest ++ behind)) := by
          rw [← List.append_assoc, ← ofNat_add_one (k + 1)]
          exact commentEnd_opening hpos
      _ = commentEnd (.ofNat (k + 1)) (read + 2 + inner.length) (rest ++ behind) :=
          ihinner _ hinner hdeeper
      _ = commentEnd (.ofNat k) (read + ('/' :: '*' :: (inner ++ rest)).length) behind := by
          rw [ihrest _ hbehind hpos, hread]
  | @char c rest hmark hrest ih =>
    have hmark' : ¬ MarkAt (c :: (rest ++ behind)) := by
      rwa [hrest.markAt_append]
    have hopen := not_opening_of_not_markAt hmark'
    have hclose := not_close_of_not_markAt hmark'
    rw [List.cons_append, mostOpen.eq_5 _ _ _ hopen hclose] at hroom
    rw [List.cons_append, commentEnd_other hpos hopen hclose, ih _ hroom hpos, List.length_cons,
      Nat.add_assoc, Nat.add_comm 1]

end TarnLang
