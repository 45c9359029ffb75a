/-
  TarnLang/Proofs/Parser/Progress.lean
  ====================================
  **Parsers go on and never back.**  Where a parser succeeds, it stands no earlier than where it
  started, and where it fails, its failure is that of a place no earlier either: the offset is
  the number of the place, and the token found is the one to report there.  Every combinator
  keeps that, so it holds for whatever is put together from them.

  `OnwardFrom p i` says so of one place.  What a combinator does from a place depends on its
  parts at the places that it tries them from, and on no others.
-/
import TarnLang.Proofs.Parser.Failure

namespace TarnLang.Parser

variable {ts : Array Token} {α β γ : Type} {i : Place ts} {f : ParseFailure}

/-- A parser that never goes back, be it to succeed or to fail. -/
structure Onward (p : Parser ts α) : Prop where
  le : ∀ {i j x}, p i = .ok (x, j) → i ≤ j
  failure : ∀ {i f}, p i = .error f → ∃ k, i ≤ k ∧ f = k.failure f.construct

/-- A parser that does not go back from one place. -/
structure OnwardFrom (p : Parser ts α) (i : Place ts) : Prop where
  le : ∀ {j x}, p i = .ok (x, j) → i ≤ j
  failure : ∀ {f}, p i = .error f → ∃ k, i ≤ k ∧ f = k.failure f.construct

theorem Onward.at {p : Parser ts α} (h : p.Onward) (i : Place ts) : p.OnwardFrom i :=
  ⟨h.le, h.failure⟩

theorem onward_of_from {p : Parser ts α} (h : ∀ i, p.OnwardFrom i) : p.Onward :=
  ⟨fun {i _ _} => (h i).le, fun {i _} => (h i).failure⟩

/-- Items read one after another go on. -/
theorem Items.le {item : Parser ts α} {i k : Place ts} {xs : List α} (h : Items item i xs k) :
    i ≤ k := by
  induction h with
  | nil i => exact Fin.le_refl i
  | cons _ hij _ ih => exact Fin.le_trans (Fin.le_of_lt hij) ih

/-! ### From one place -/

namespace OnwardFrom

variable {p : Parser ts α}

theorem fail (construct : String) (i : Place ts) :
    (Parser.fail construct : Parser ts α).OnwardFrom i := by
  constructor
  · intro j x h
    cases h
  · intro f h
    obtain rfl := Except.error.inj h
    exact ⟨i, Fin.le_refl i, rfl⟩

theorem token (k : TokenKind) (i : Place ts) : (token k).OnwardFrom i := by
  constructor
  · intro j t h
    exact Fin.le_of_lt (token_ok.mp h).lt
  · intro f h
    obtain rfl := token_error_eq h
    exact ⟨i, Fin.le_refl i, rfl⟩

theorem pure (x : α) (i : Place ts) : (pure x : Parser ts α).OnwardFrom i := by
  constructor
  · intro j y h
    exact Fin.le_of_eq (pure_ok.mp h).2
  · intro f h
    exact absurd h pure_ne_error

theorem bind {q : α → Parser ts β} (hp : p.OnwardFrom i)
    (hq : ∀ x j, p i = .ok (x, j) → (q x).OnwardFrom j) : (p >>= q).OnwardFrom i := by
  constructor
  · intro k y h
    obtain ⟨x, j, hx, hy⟩ := bind_ok.mp h
    exact Fin.le_trans (hp.le hx) ((hq x j hx).le hy)
  · intro f h
    rcases bind_error.mp h with hfirst | ⟨x, j, hx, hrest⟩
    · exact hp.failure hfirst
    · obtain ⟨k, hjk, hf⟩ := (hq x j hx).failure hrest
      exact ⟨k, Fin.le_trans (hp.le hx) hjk, hf⟩

theorem spanned (hp : p.OnwardFrom i) : (spanned p).OnwardFrom i := by
  constructor
  · intro j x h
    exact hp.le (spanned_ok.mp h).1
  · intro f h
    exact hp.failure (spanned_error.mp h)

/-! ### Choices -/

/-- A second alternative is tried where the first one fails. -/
theorem orElse {q : Parser ts α} (hp : p.OnwardFrom i)
    (hq : (∃ e, p i = .error e) → q.OnwardFrom i) : (p <|> q).OnwardFrom i := by
  cases hpi : p i with
  | ok r =>
    have hchoice : (p <|> q) i = .ok r := orElse_ok.mpr (Or.inl hpi)
    constructor
    · intro j x h
      exact hp.le (hpi.trans (hchoice.symm.trans h))
    · intro f h
      rw [hchoice] at h
      cases h
  | error e =>
    have hq := hq ⟨e, hpi⟩
    constructor
    · intro j x h
      rcases orElse_ok.mp h with hx | ⟨-, hx⟩
      · exact hp.le hx
      · exact hq.le hx
    · intro f h
      rcases orElse_error h with hf | hf
      · exact hp.failure hf
      · exact hq.failure hf

/-- An alternative is tried where all before it fail. -/
theorem anyAfter {ps : List (Parser ts α)} {best : Option ParseFailure}
    (hbest : ∀ b ∈ best, ∃ k, i ≤ k ∧ b = k.failure b.construct)
    (hps : ∀ before p after, ps = before ++ p :: after →
      (∀ q ∈ before, ∃ e, q i = .error e) → p.OnwardFrom i) :
    (anyAfter best ps).OnwardFrom i := by
  induction ps generalizing best with
  | nil =>
    constructor
    · intro j x h
      cases h
    · intro f h
      cases best with
      | none =>
        obtain rfl := Except.error.inj h
        exact ⟨i, Fin.le_refl i, rfl⟩
      | some b =>
        obtain rfl := Except.error.inj h
        exact hbest b rfl
  | cons p ps ih =>
    have hp := hps [] p ps rfl fun q hq => absurd hq List.not_mem_nil
    cases hpi : p i with
    | ok r =>
      have hchoice : Parser.anyAfter best (p :: ps) i = .ok r := by rw [Parser.anyAfter, hpi]
      constructor
      · intro j x h
        exact hp.le (hpi.trans (hchoice.symm.trans h))
      · intro f h
        rw [hchoice] at h
        cases h
    | error e =>
      -- the failure to report so far is that of this alternative or of one before it
      obtain ⟨further, hfurther, hchoice⟩ :
          ∃ further, (∃ k, i ≤ k ∧ further = k.failure further.construct) ∧
            Parser.anyAfter best (p :: ps) i = Parser.anyAfter (some further) ps i := by
        cases best with
        | none => exact ⟨e, hp.failure hpi, by rw [Parser.anyAfter, hpi]⟩
        | some b =>
          refine ⟨b.furthest e, ?_, by rw [Parser.anyAfter, hpi]⟩
          unfold ParseFailure.furthest
          split
          · exact hp.failure hpi
          · exact hbest b rfl
      have hrest : (Parser.anyAfter (some further) ps).OnwardFrom i := by
        apply ih
        · rintro b hb
          cases hb
          exact hfurther
        · rintro before q after rfl hbefore
          apply hps (p :: before) q after rfl
          intro q' hq'
          rcases List.mem_cons.mp hq' with rfl | hq'
          · exact ⟨e, hpi⟩
          · exact hbefore q' hq'
      exact ⟨fun h => hrest.le (hchoice.symm.trans h), fun h => hrest.failure (hchoice.symm.trans h)⟩

theorem any {ps : List (Parser ts α)}
    (hps : ∀ before p after, ps = before ++ p :: after →
      (∀ q ∈ before, ∃ e, q i = .error e) → p.OnwardFrom i) : (any ps).OnwardFrom i :=
  anyAfter (fun _ hb => nomatch hb) hps

theorem optional [Absent α] (hp : p.OnwardFrom i) : (optional p).OnwardFrom i := by
  constructor
  · intro j x h
    rcases optional_ok.mp h with hx | ⟨e, -, -, -, rfl⟩
    · exact hp.le hx
    · exact Fin.le_refl i
  · intro f h
    exact hp.failure (optional_error.mp h).1

theorem named (hp : p.OnwardFrom i) (construct : String) : (named construct p).OnwardFrom i := by
  constructor
  · intro j x h
    exact hp.le (named_ok.mp h)
  · intro f h
    obtain ⟨e, he, hf⟩ := named_error h
    obtain ⟨k, hik, hk⟩ := hp.failure he
    refine ⟨k, hik, ?_⟩
    rcases hf with ⟨-, rfl⟩ | ⟨-, rfl⟩
    · rw [hk]
      rfl
    · exact hk

/-! ### Repetitions -/

theorem many (item : Parser ts α) (i : Place ts) : (many item).OnwardFrom i := by
  constructor
  · intro j xs h
    exact (many_ok.mp h).1.le
  · intro f h
    cases h

/-- The loop goes on behind an item that reads something; the terminator comes where it stops. -/
theorem manyUntil {item : Parser ts α} {terminator : Parser ts β} (hitem : item.OnwardFrom i)
    (hmore : ∀ x j, item i = .ok (x, j) → i < j → (manyUntil item terminator).OnwardFrom j)
    (hlast : Stops item i → terminator.OnwardFrom i) :
    (manyUntil item terminator).OnwardFrom i := by
  constructor
  · rintro l ⟨xs, last⟩ h
    obtain ⟨k, ⟨hitems, hstop⟩, hend⟩ := manyUntil_ok.mp h
    cases hitems with
    | nil => exact (hlast hstop).le hend
    | cons hx hij hrest =>
      have hrest := manyUntil_ok.mpr ⟨k, ⟨hrest, hstop⟩, hend⟩
      exact Fin.le_trans (Fin.le_of_lt hij) ((hmore _ _ hx hij).le hrest)
  · intro f h
    rw [Parser.manyUntil] at h
    cases hx : item i with
    | ok r =>
      obtain ⟨x, j⟩ := r
      rw [hx] at h
      by_cases hij : i < j
      · simp only [if_pos hij] at h
        split at h
        case h_1 => cases h
        case h_2 e he =>
          obtain rfl := Except.error.inj h
          obtain ⟨k, hjk, hf⟩ := (hmore x j hx hij).failure he
          exact ⟨k, Fin.le_trans (Fin.le_of_lt hij) hjk, hf⟩
      · simp only [if_neg hij] at h
        split at h
        case h_1 => cases h
        case h_2 e he =>
          obtain rfl := Except.error.inj h
          exact (hlast (stops_of_not_lt hx hij)).failure he
    | error e =>
      rw [hx] at h
      simp only at h
      split at h
      case h_1 => cases h
      case h_2 e' he' =>
        obtain rfl := Except.error.inj h
        unfold ParseFailure.furthest
        split
        · exact (hlast (stops_of_error hx)).failure he'
        · exact hitem.failure hx

/-- The loop goes round behind each separator, and each turn reads something. -/
theorem separated {separator : Parser ts β} {item : Parser ts α} (hitem : item.OnwardFrom i)
    (hmore : ∀ x k, separatedTurn separator item i = .ok (.more x k) →
      i < k ∧ (separated separator item).OnwardFrom k) :
    (separated separator item).OnwardFrom i := by
  constructor
  · intro l xs h
    rw [Parser.separated] at h
    split at h
    case h_1 x j hturn =>
      obtain ⟨-, rfl⟩ := Prod.mk.inj (Except.ok.inj h)
      exact hitem.le (separatedTurn_last.mp hturn).1
    case h_2 x k hturn =>
      obtain ⟨hik, hk⟩ := hmore x k hturn
      rw [if_pos hik] at h
      split at h
      case h_1 ys m hm =>
        obtain ⟨-, rfl⟩ := Prod.mk.inj (Except.ok.inj h)
        exact Fin.le_trans (Fin.le_of_lt hik) (hk.le hm)
      case h_2 => cases h
    case h_3 => cases h
  · intro f h
    rw [Parser.separated] at h
    split at h
    case h_1 => cases h
    case h_2 x k hturn =>
      obtain ⟨hik, hk⟩ := hmore x k hturn
      rw [if_pos hik] at h
      split at h
      case h_1 => cases h
      case h_2 e he =>
        obtain rfl := Except.error.inj h
        obtain ⟨l, hkl, hf⟩ := hk.failure he
        exact ⟨l, Fin.le_trans (Fin.le_of_lt hik) hkl, hf⟩
    case h_3 e hturn =>
      obtain rfl := Except.error.inj h
      exact hitem.failure (separatedTurn_error hturn)

end OnwardFrom

/-! ### From every place -/

namespace Onward

theorem fail (construct : String) : (Parser.fail construct : Parser ts α).Onward :=
  onward_of_from (.fail construct)

theorem token (k : TokenKind) : (token k : Parser ts Token).Onward := onward_of_from (.token k)

theorem pure (x : α) : (pure x : Parser ts α).Onward := onward_of_from (.pure x)

theorem bind {p : Parser ts α} {q : α → Parser ts β} (hp : p.Onward) (hq : ∀ x, (q x).Onward) :
    (p >>= q).Onward :=
  onward_of_from fun i => (hp.at i).bind fun x j _ => (hq x).at j

theorem map {p : Parser ts α} (hp : p.Onward) (g : α → β) : (g <$> p).Onward :=
  hp.bind fun x => pure (g x)

theorem spanned {p : Parser ts α} (hp : p.Onward) : (spanned p).Onward :=
  onward_of_from fun i => (hp.at i).spanned

theorem withSpan {p : Parser ts (Span → α)} (hp : p.Onward) : (withSpan p).Onward :=
  hp.spanned.bind fun _ => pure _

theorem surrounded {opening : Parser ts α} {closing : Parser ts β} {p : Parser ts γ}
    (hopening : opening.Onward) (hclosing : closing.Onward) (hp : p.Onward) :
    (surrounded opening closing p).Onward :=
  hopening.bind fun _ => hp.bind fun _ => hclosing.bind fun _ => pure _

theorem orElse {p q : Parser ts α} (hp : p.Onward) (hq : q.Onward) : (p <|> q).Onward :=
  onward_of_from fun i => (hp.at i).orElse fun _ => hq.at i

theorem oneOf {ks : List TokenKind} : (oneOf ks : Parser ts Token).Onward := by
  refine onward_of_from fun i => .any ?_
  intro before p after hps _
  have hp : p ∈ ks.map Parser.token := hps ▸ List.mem_append_right before (List.mem_cons_self ..)
  obtain ⟨k, -, rfl⟩ := List.mem_map.mp hp
  exact .token k i

theorem optional [Absent α] {p : Parser ts α} (hp : p.Onward) : (optional p).Onward :=
  onward_of_from fun i => (hp.at i).optional

theorem named {p : Parser ts α} (hp : p.Onward) (construct : String) :
    (named construct p).Onward :=
  onward_of_from fun i => (hp.at i).named construct

theorem many (item : Parser ts α) : (many item).Onward := onward_of_from (.many item)

theorem manyUntil {item : Parser ts α} {terminator : Parser ts β} (hitem : item.Onward)
    (hterminator : terminator.Onward) : (manyUntil item terminator).Onward := by
  apply onward_of_from
  intro i
  induction hleft : i.left using Nat.strongRecOn generalizing i with
  | ind left ih =>
    subst hleft
    refine .manyUntil (hitem.at i) (fun x j _ hij => ?_) fun _ => hterminator.at i
    exact ih j.left (Place.left_lt_left hij) j rfl

/-- A list whose separators read something. -/
theorem separated {separator : Parser ts β} {item : Parser ts α}
    (hseparator : ∀ {i j y}, separator i = .ok (y, j) → i < j) (hitem : item.Onward) :
    (separated separator item).Onward := by
  have hadvances : Advances separator item := advances_of_le_of_lt hitem.le hseparator
  apply onward_of_from
  intro i
  induction hleft : i.left using Nat.strongRecOn generalizing i with
  | ind left ih =>
    subst hleft
    refine .separated (hitem.at i) fun x k hturn => ⟨hadvances hturn, ?_⟩
    exact ih k.left (Place.left_lt_left (hadvances hturn)) k rfl

end Onward

end TarnLang.Parser
