import BoundedPlanning.Solver.Intake
import BoundedPlanning.Solver.Search

namespace BoundedPlanning

/-- Whether a search with a budget of so many milliseconds finds it used up when it enters the
branch below an assignment. -/
abbrev Clock := Nat → Assignment → Bool

/-- A clock on which only the empty budget is ever used up. -/
def Clock.patient : Clock := fun milliseconds _ => milliseconds == 0

structure ReferenceSolver where
  intake : Intake
  clauses : Array (List Int) := #[]
  solveCount : Nat := 0

namespace ReferenceSolver

def init (limits : SolverLimits) : ReferenceSolver := { intake := .init limits }

def reserve (solver : ReferenceSolver) (maxVar : Nat) : ReferenceSolver :=
  { solver with intake := solver.intake.reserve maxVar }

def accept (solver : ReferenceSolver) (lits : List Int) : ReferenceSolver :=
  { solver with intake := solver.intake.accept lits, clauses := solver.clauses.push lits }

/-- Make the assumptions true one after the other; `none` if one opposes an earlier one. -/
def assume : List Int → Assignment → Option Assignment
  | [], assignment => some assignment
  | lit :: rest, assignment =>
    if (assignment.truth lit).fails then none else assume rest (assignment.assign lit)

/-- The model of an assignment: its open variables become false. -/
def modelOf (assignment : Assignment) : Model :=
  ⟨(assignment.values.extract 1 assignment.values.size).map Truth.holds⟩

/-- Decide the clauses under assumptions, which are only checked to be literals. -/
def decideUnder (solver : ReferenceSolver) (assumptions : List Int)
    (expired : Assignment → Bool) : SolveResult :=
  match assume assumptions (.allOpen solver.intake.reserved) with
  | none => .unsat
  | some assignment =>
    match search solver.clauses.toList expired assignment with
    | .found found => .sat (modelOf found)
    | .exhausted => .unsat
    | .interrupted => .timedOut

def solve (clock : Clock) (solver : ReferenceSolver) (assumptions : List Int)
    (timeout : Option Nat) : SolveResult × ReferenceSolver :=
  let expired := fun assignment => timeout.any fun budget => clock budget assignment
  (solver.decideUnder assumptions expired, { solver with solveCount := solver.solveCount + 1 })

def backend (clock : Clock) : Backend ReferenceSolver where
  name _ := "reference"
  limits solver := solver.intake.limits
  reserve maxVar :=
    .checked (fun solver => solver.intake.checkReserve maxVar) fun solver =>
      ((), solver.reserve maxVar)
  addClause lits :=
    .checked (fun solver => solver.intake.checkClause lits) fun solver => ((), solver.accept lits)
  solve assumptions timeout :=
    .checked (fun solver => solver.intake.checkLiterals assumptions) fun solver =>
      solver.solve clock assumptions timeout
  numVars solver := solver.intake.reserved
  numClauses solver := solver.intake.clauseCount

end ReferenceSolver

end BoundedPlanning
