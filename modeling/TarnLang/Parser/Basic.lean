/-
  TarnLang/Parser/Basic.lean
  ==========================
  **Parsers over a token stream.**  A stream is an array of tokens, and a place in it
  is the number of tokens already read, so a place is at most the stream's length.  A
  parser takes a place and gives a value with the place after what it read, or a
  failure.  It changes nothing, so another attempt from the same place is free.

  Parsers form a monad: `p >>= f` runs `f` where `p` stopped, and the first failure is
  the failure of the whole.  `token` reads one token of a given kind, and `spanned`
  adds the span of what a parser read.
-/
import TarnLang.Failure

namespace TarnLang

/-- A place in a stream: how many of its tokens have been read. -/
abbrev Place (ts : Array Token) := Fin (ts.size + 1)

/-- What a parser gives: a value and the place behind it, or a failure. -/
abbrev Outcome (ts : Array Token) (α : Type) := Except ParseFailure (α × Place ts)

instance {ts : Array Token} {α : Type} [DecidableEq α] : DecidableEq (Outcome ts α)
  | .ok r, .ok s => decidable_of_iff (r = s) (by simp)
  | .error e, .error f => decidable_of_iff (e = f) (by simp)
  | .ok _, .error _ => isFalse nofun
  | .error _, .ok _ => isFalse nofun

/-- A parser on the stream `ts`. -/
def Parser (ts : Array Token) (α : Type) := Place ts → Outcome ts α

namespace Place

def first (ts : Array Token) : Place ts := ⟨0, Nat.succ_pos _⟩

variable {ts : Array Token}

def left (i : Place ts) : Nat := ts.size - i.val

theorem left_lt_left {i j : Place ts} (h : i < j) : j.left < i.left := by
  have hij : i.val < j.val := h
  have hj := j.isLt
  simp only [left]
  omega

/-- The next token, if there is one. -/
def peek? (i : Place ts) : Option Token := ts[i.val]?

/-- The token to report at a place: the next one, else the last one of the stream,
    else an end of file at the origin. -/
def found (i : Place ts) : Token := (i.peek?.or ts.back?).getD Token.emptyEof

/-- The failure to find a construct at a place. -/
def failure (construct : String) (i : Place ts) : ParseFailure := ⟨construct, i.found, i.val⟩

/-- Span of the tokens from the first place up to the second.  Where there are none, it
    is the empty span at the start of the token to report. -/
def spanTo (i j : Place ts) : Span :=
  if i < j then
    match ts[i.val]?, ts[j.val - 1]? with
    | some first, some last => first.span.through last.span
    | _, _ => Span.point i.found.span.start
  else Span.point i.found.span.start

end Place

namespace Parser

variable {ts : Array Token} {α β : Type}

protected def pure (x : α) : Parser ts α := fun i => .ok (x, i)

protected def bind (p : Parser ts α) (f : α → Parser ts β) : Parser ts β := fun i =>
  match p i with
  | .ok (x, j) => f x j
  | .error e => .error e

instance : Monad (Parser ts) where
  pure := Parser.pure
  bind := Parser.bind

/-- Fails to find a construct, wherever it is. -/
def fail (construct : String) : Parser ts α := fun i => .error (i.failure construct)

def token (kind : TokenKind) : Parser ts Token := fun i =>
  if h : i.val < ts.size then
    if ts[i.val].kind = kind then .ok (ts[i.val], ⟨i.val + 1, Nat.succ_lt_succ h⟩)
    else .error (i.failure kind.displayName)
  else .error (i.failure kind.displayName)

def spanned (p : Parser ts α) : Parser ts (α × Span) := fun i =>
  match p i with
  | .ok (x, j) => .ok ((x, i.spanTo j), j)
  | .error e => .error e

/-- Hands the span of the tokens read to the value. -/
def withSpan (p : Parser ts (Span → α)) : Parser ts α := do
  let (make, span) ← spanned p
  pure (make span)

/-- Runs two parsers one after the other and keeps both values. -/
def both (p : Parser ts α) (q : Parser ts β) : Parser ts (α × β) := do
  let x ← p
  let y ← q
  pure (x, y)

/-- Runs parsers one after another and lists their values. -/
def all : List (Parser ts α) → Parser ts (List α)
  | [] => pure []
  | p :: ps => do
    let x ← p
    let xs ← all ps
    pure (x :: xs)

/-- Reads an opening, an inner part and a closing, and keeps all three. -/
def surrounded (opening : Parser ts α) (closing : Parser ts β) {γ : Type} (inner : Parser ts γ) :
    Parser ts (α × γ × β) := do
  let a ← opening
  let x ← inner
  let b ← closing
  pure (a, x, b)

end Parser

end TarnLang
