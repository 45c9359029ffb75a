/-
  TarnLang/Diagnostic/Suggestion.lean
  ===================================
  **Suggestions for names that were not found.**  The distance of two names is the least
  number of insertions, deletions and replacements of a character that turn one into the
  other.  It is computed row by row: a row holds the distances of one prefix of the first
  name to all prefixes of the second.

  The name suggested is the first of the closest candidates, if it is close enough for
  the length of the name that was looked for.
-/

namespace TarnLang

/-! ### Distance -/

/-- The rest of a row behind its first entry `left`.  `above` is the entry over `left`,
    and the list of numbers the entries over the rest. -/
def distanceRowRest (c : Char) (left above : Nat) : List Char → List Nat → List Nat
  | d :: ds, up :: ups =>
    let entry := min (min (up + 1) (left + 1)) (above + if c = d then 0 else 1)
    entry :: distanceRowRest c entry up ds ups
  | _, _ => []

/-- The row for a prefix that is one character longer. -/
def distanceRow (c : Char) (target : List Char) : List Nat → List Nat
  | [] => []
  | above :: ups => (above + 1) :: distanceRowRest c (above + 1) above target ups

/-- The row for a whole text, from the row for the empty prefix. -/
def distanceRows (target : List Char) : List Char → List Nat → List Nat
  | [], row => row
  | c :: cs, row => distanceRows target cs (distanceRow c target row)

/-- Number of single-character edits between two texts. -/
def editDistance (a b : List Char) : Nat :=
  (distanceRows b a (List.range (b.length + 1))).getLast?.getD 0

/-! ### The closest candidate -/

/-- How far a candidate may be from a name of the given length. -/
def maxDistance (length : Nat) : Nat :=
  if length ≤ 2 then 1 else if length ≤ 5 then 2 else 3

/-- Takes one more candidate into account.  `best` is the closest one so far, with its
    distance.  The name itself is no candidate, and one whose length differs by too much
    is too far. -/
def considerCandidate (name : String) (best : Option (String × Nat)) (candidate : String) :
    Option (String × Nat) :=
  let limit := maxDistance name.length
  if candidate = name then best
  else if limit < name.length - candidate.length + (candidate.length - name.length) then best
  else
    let distance := editDistance name.toList candidate.toList
    if distance ≤ limit ∧ best.all (fun b => distance < b.2) then some (candidate, distance)
    else best

/-- The closest candidate that is close enough; of several, the first. -/
def closestCandidate (name : String) (candidates : List String) : Option String :=
  (candidates.foldl (considerCandidate name) none).map (·.1)

/-- Suggestion of a name to use instead of one that was not found. -/
def didYouMean (name : String) (candidates : List String) : Option String :=
  (closestCandidate name candidates).map fun closest => "did you mean `" ++ closest ++ "`?"

end TarnLang
