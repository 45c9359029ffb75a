/-
  TarnLang/Proofs/Resolution/Region.lean
  ======================================
  **Regions of a program.**  A region is a construct with a scope of its own, and the regions
  inside it are those of its body.  Regions are read off the tree: a function or procedure, a
  block, the body of a branch, loop or case.  What follows an `if` stands beside it.  A `for` is
  one region, with its clauses inside.

  In preorder each region has a number, and so has the one around it.

  The steps of a walk show its regions.  They are brackets: a step that enters a scope opens a
  region, and the step that leaves it again closes the region.
-/
import TarnLang.Proofs.Resolution.Script

namespace TarnLang

/-! ### Regions -/

/-- What a scope is opened for: a function or procedure with its name, or a construct that has
    none. -/
inductive Opening
  | callable (naming : Naming)
  | block (construct : String) (span : Span)

def Opening.kind : Opening → ScopeKind
  | callable _ => .callable
  | block .. => .block

/-- A construct with a scope of its own, and those directly inside it. -/
inductive Region
  | mk (opening : Opening) (inside : List Region)

namespace Region

def opening : Region → Opening
  | mk opening _ => opening

def inside : Region → List Region
  | mk _ inside => inside

end Region

mutual

/-- Outermost regions of a node that stands where a statement is wanted. -/
def statementRegions : Node → List Region
  | .functionDef signature ⟨body, bodySpan⟩ span =>
    [⟨.callable (.ofFunction signature ⟨body, bodySpan⟩ span), statementsRegions body⟩]
  | .procedureDef signature ⟨body, bodySpan⟩ span =>
    [⟨.callable (.ofProcedure signature ⟨body, bodySpan⟩ span), statementsRegions body⟩]
  | .block ⟨body, span⟩ => [⟨.block "block" span, statementsRegions body⟩]
  | .ifStmt _ ⟨body, _⟩ alternative span =>
    ⟨.block "if" span, statementsRegions body⟩ :: statementRegions alternative
  | .elseIf _ ⟨body, _⟩ alternative span =>
    ⟨.block "elseif" span, statementsRegions body⟩ :: statementRegions alternative
  | .elseClause ⟨body, _⟩ span => [⟨.block "else" span, statementsRegions body⟩]
  | .forLoop init _ update ⟨body, _⟩ span =>
    [⟨.block "for" span,
      statementRegions init ++ (statementRegions update ++ statementsRegions body)⟩]
  | .whileLoop _ ⟨body, _⟩ span => [⟨.block "while" span, statementsRegions body⟩]
  | .switchStmt _ cases _ => casesRegions cases
  | _ => []

def statementsRegions : List Node → List Region
  | [] => []
  | n :: ns => statementRegions n ++ statementsRegions ns

def casesRegions : List (Case Node) → List Region
  | [] => []
  | ⟨_, ⟨body, _⟩, span⟩ :: cs => ⟨.block "case" span, statementsRegions body⟩ :: casesRegions cs

end

def Program.regions (p : Program) : List Region := statementsRegions p.declarations

/-! ### Numbers of regions -/

mutual

/-- A region and those inside it in preorder, each with the number of the one around it.  The
    region has the number `number`, and those inside have the numbers behind it. -/
def Region.rows (parent number : Nat) : Region → List (Nat × Region)
  | ⟨opening, inside⟩ => (parent, ⟨opening, inside⟩) :: regionRows number (number + 1) inside

/-- Regions side by side, the first of them with the number `next`. -/
def regionRows (parent next : Nat) : List Region → List (Nat × Region)
  | [] => []
  | r :: rs => r.rows parent next ++ regionRows parent (next + (r.rows parent next).length) rs

end

/-- All regions of a program.  The program itself has the number zero. -/
def Program.regionRows (p : Program) : List (Nat × Region) := TarnLang.regionRows 0 1 p.regions

theorem regionRows_append (parent next : Nat) (rs rs' : List Region) :
    regionRows parent next (rs ++ rs') = regionRows parent next rs ++
      regionRows parent (next + (regionRows parent next rs).length) rs' := by
  induction rs generalizing next with
  | nil => rfl
  | cons r rs ih =>
    simp only [List.cons_append, regionRows, ih, List.append_assoc, List.length_append,
      Nat.add_assoc]

theorem regionRows_single (parent next : Nat) (opening : Opening) (inside : List Region) :
    regionRows parent next [⟨opening, inside⟩] =
      (parent, ⟨opening, inside⟩) :: regionRows next (next + 1) inside := by
  simp [regionRows, Region.rows]

mutual

/-- The number in front of a region is that of a region right around it. -/
theorem Region.around_of_rows (r : Region) {parent number i up : Nat} {s : Region}
    (h : (r.rows parent number)[i]? = some (up, s)) :
    up = parent ∧ s = r ∨ ∃ j above outer, up = number + j ∧ j < i ∧
      (r.rows parent number)[j]? = some (above, outer) ∧ s ∈ outer.inside := by
  obtain ⟨opening, inside⟩ := r
  rw [Region.rows] at h ⊢
  cases i with
  | zero =>
    cases h
    exact .inl ⟨rfl, rfl⟩
  | succ i =>
    right
    rcases around_of_regionRows inside h with ⟨rfl, hs⟩ | ⟨j, above, outer, rfl, hj, hrow, hs⟩
    · exact ⟨0, parent, ⟨opening, inside⟩, rfl, Nat.succ_pos i, rfl, hs⟩
    · exact ⟨j + 1, above, outer, by omega, Nat.succ_lt_succ hj, hrow, hs⟩

theorem around_of_regionRows (rs : List Region) {parent next i up : Nat} {s : Region}
    (h : (regionRows parent next rs)[i]? = some (up, s)) :
    up = parent ∧ s ∈ rs ∨ ∃ j above outer, up = next + j ∧ j < i ∧
      (regionRows parent next rs)[j]? = some (above, outer) ∧ s ∈ outer.inside := by
  cases rs with
  | nil => cases h
  | cons r rs =>
    rw [regionRows] at h ⊢
    by_cases hi : i < (r.rows parent next).length
    · rw [List.getElem?_append_left hi] at h
      rcases r.around_of_rows h with ⟨hup, rfl⟩ | ⟨j, above, outer, hup, hj, hrow, hs⟩
      · exact .inl ⟨hup, List.mem_cons_self ..⟩
      · refine .inr ⟨j, above, outer, hup, hj, ?_, hs⟩
        rw [List.getElem?_append_left (Nat.lt_trans hj hi)]
        exact hrow
    · have hi := Nat.le_of_not_lt hi
      rw [List.getElem?_append_right hi] at h
      rcases around_of_regionRows rs h with ⟨hup, hs⟩ | ⟨j, above, outer, hup, hj, hrow, hs⟩
      · exact .inl ⟨hup, List.mem_cons_of_mem r hs⟩
      · refine .inr ⟨(r.rows parent next).length + j, above, outer, by omega, by omega, ?_, hs⟩
        rw [List.getElem?_append_right (Nat.le_add_right _ _), Nat.add_sub_cancel_left]
        exact hrow

end

/-! ### Regions of steps -/

def Step.opening? : Step → Option Opening
  | .begins naming => some (.callable naming)
  | .enters construct span => some (.block construct span)
  | _ => none

/-- Steps with the regions that they open and close. -/
inductive Shows : List Step → List Region → Prop
  | nil : Shows [] []
  | uses {usage name} : Shows [.uses usage name] []
  | declares {naming} : Shows [.declares naming] []
  | append {steps steps' regions regions'} (h : Shows steps regions) (h' : Shows steps' regions') :
    Shows (steps ++ steps') (regions ++ regions')
  | region {step opening body inside} (hstep : step.opening? = some opening)
    (h : Shows body inside) : Shows (step :: (body ++ [.leaves])) [⟨opening, inside⟩]

namespace Shows

variable {steps body : List Step} {regions inside : List Region}

/-- The steps that enter scopes come in the order of the regions. -/
theorem filterMap_opening? (h : Shows steps regions) (parent next : Nat) :
    steps.filterMap Step.opening? = (regionRows parent next regions).map (·.2.opening) := by
  induction h generalizing parent next with
  | nil => rfl
  | uses => rfl
  | declares => rfl
  | append _ _ ih ih' =>
    rw [List.filterMap_append, regionRows_append, List.map_append, ih parent next, ih']
  | region hstep _ ih =>
    rw [List.filterMap_cons_some hstep, List.filterMap_append, ih next (next + 1),
      regionRows_single]
    exact congrArg (List.cons _) (List.append_nil _)

theorem cons_uses (h : Shows steps regions) (usage : Usage) (name : Token) :
    Shows (.uses usage name :: steps) regions := uses.append h

theorem block (h : Shows body inside) (construct : String) (span : Span) :
    Shows (blockSteps construct span body) [⟨.block construct span, inside⟩] := .region rfl h

theorem parameters (names : List Token) :
    Shows (names.map fun name => .declares (.ofParameter name)) [] := by
  induction names with
  | nil => exact .nil
  | cons name names ih => exact declares.append ih

/-- Parameters are declared inside the region, in front of the body. -/
theorem callable (h : Shows body inside) (naming : Naming) (signature : Signature) :
    Shows (callableSteps naming signature body) [⟨.callable naming, inside⟩] := by
  rw [callableSteps, ← List.append_assoc]
  exact .region rfl ((parameters signature.parameters.names).append h)

mutual

/-- There are no regions in values. -/
theorem of_value (n : Node) : Shows (valueSteps n) [] := by
  cases n with
  | leaf token =>
    rw [valueSteps]
    split
    · exact .uses
    · exact .nil
  | call c =>
    obtain ⟨name, ⟨arguments, argumentsSpan⟩, span⟩ := c
    exact (of_values arguments).cons_uses _ name
  | binary left operator right span => exact (of_value left).append (of_value right)
  | unary operator operand span => exact of_value operand
  | _ => exact .nil

theorem of_values (ns : List Node) : Shows (valuesSteps ns) [] := by
  cases ns with
  | nil => exact .nil
  | cons n ns => exact (of_value n).append (of_values ns)

end

mutual

/-- **The steps over a node show its regions**, whatever its shape. -/
theorem of_statement (n : Node) : Shows (statementSteps n) (statementRegions n) := by
  cases n with
  | functionDef signature body span =>
    obtain ⟨body, bodySpan⟩ := body
    exact (of_statements body).callable _ signature
  | procedureDef signature body span =>
    obtain ⟨body, bodySpan⟩ := body
    exact (of_statements body).callable _ signature
  | varDecl name span => exact .declares
  | varInit name value span => exact (of_value value).append .declares
  | assignment name value span => exact (of_value value).cons_uses _ name
  | call c =>
    obtain ⟨name, ⟨arguments, argumentsSpan⟩, span⟩ := c
    exact (of_values arguments).cons_uses _ name
  | block b =>
    obtain ⟨body, span⟩ := b
    exact (of_statements body).block "block" span
  | returnStmt value span => exact of_value value
  | ifStmt condition body alternative span =>
    obtain ⟨body, bodySpan⟩ := body
    exact (of_value condition).append
      (((of_statements body).block "if" span).append (of_statement alternative))
  | elseIf condition body alternative span =>
    obtain ⟨body, bodySpan⟩ := body
    exact (of_value condition).append
      (((of_statements body).block "elseif" span).append (of_statement alternative))
  | elseClause body span =>
    obtain ⟨body, bodySpan⟩ := body
    exact (of_statements body).block "else" span
  | forLoop init test update body span =>
    obtain ⟨body, bodySpan⟩ := body
    exact ((of_statement init).append ((of_value test).append
      ((of_statement update).append (of_statements body)))).block "for" span
  | whileLoop condition body span =>
    obtain ⟨body, bodySpan⟩ := body
    exact (of_value condition).append ((of_statements body).block "while" span)
  | switchStmt subject cases span => exact (of_value subject).append (of_cases cases)
  | binary left operator right span => exact of_value (.binary left operator right span)
  | unary operator operand span => exact of_value (.unary operator operand span)
  | leaf token => exact of_value (.leaf token)
  | missing failure => exact .nil

theorem of_statements (ns : List Node) : Shows (statementsSteps ns) (statementsRegions ns) := by
  cases ns with
  | nil => exact .nil
  | cons n ns => exact (of_statement n).append (of_statements ns)

theorem of_cases (cs : List (Case Node)) : Shows (casesSteps cs) (casesRegions cs) := by
  cases cs with
  | nil => exact .nil
  | cons c cs =>
    obtain ⟨value, ⟨body, bodySpan⟩, span⟩ := c
    exact (of_value value).append (((of_statements body).block "case" span).append (of_cases cs))

end

end Shows

end TarnLang
