import BoundedPlanning.Solver.Intake
import BoundedPlanning.Text.Digits

namespace BoundedPlanning

/-- A question for Z3: whether the clauses over the variables up to `numVars` can hold together with
the assumptions. -/
structure Z3Query where
  numVars : Nat
  clauses : List (List Int)
  assumptions : List Int
  /-- A budget in milliseconds, of 32 bits. -/
  timeout : Option Nat

/-- The budget for so many milliseconds; beyond 32 bits it is the longest one. -/
def Z3Query.budget (milliseconds : Nat) : Nat := min milliseconds (bound32 - 1)

/-- What Z3 answers.  It may have no model, no value for a variable, and no reason. -/
inductive Z3Answer
  | sat (model : Option (Nat → Option Bool))
  | unsat
  | unknown (reason : Option String)

/-- Z3, as it is asked by the solver that buffers its clauses.  Besides the question, answers depend
on states of type `ζ`, which nothing else is known of. -/
structure Z3 (ζ : Type) where
  init : ζ
  check : Z3Query → ζ → Z3Answer × ζ

/-- The solver that keeps its clauses and asks a new context with all of them at every call. -/
structure Z3Solver (ζ : Type) where
  outside : ζ
  intake : Intake
  clauses : Array (List Int) := #[]

namespace Z3Solver

variable {ζ : Type}

def init (oracle : Z3 ζ) (limits : SolverLimits) : Z3Solver ζ where
  outside := oracle.init
  intake := .init limits

def query (solver : Z3Solver ζ) (assumptions : List Int) (timeout : Option Nat) : Z3Query where
  numVars := solver.intake.reserved
  clauses := solver.clauses.toList
  assumptions := assumptions
  timeout := timeout.map Z3Query.budget

/-- The answer of the solver.  Variables that a model leaves open become false. -/
def resultOf (numVars : Nat) (timeout : Option Nat) : Z3Answer → Except SolverError SolveResult
  | .sat none => .error (.backendFailure "z3 returned sat without a model")
  | .sat (some model) =>
    .ok (.sat ⟨((List.range numVars).map fun i => (model (i + 1)).getD false).toArray⟩)
  | .unsat => .ok .unsat
  | .unknown reason? =>
    let reason := reason?.getD ""
    if timeout.isSome && (reason.contains "timeout" || reason.contains "canceled") then
      .ok .timedOut
    else .error (.backendFailure s!"z3 returned unknown: {reason}")

def solve (oracle : Z3 ζ) (assumptions : List Int) (timeout : Option Nat) :
    SolverM (Z3Solver ζ) SolveResult := do
  SolverM.checked (fun solver => solver.intake.checkLiterals assumptions) fun solver =>
    ((), solver)
  fun solver =>
    let (answer, outside) := oracle.check (solver.query assumptions timeout) solver.outside
    (resultOf solver.intake.reserved timeout answer, { solver with outside := outside })

def backend (oracle : Z3 ζ) : Backend (Z3Solver ζ) where
  name _ := "z3"
  limits solver := solver.intake.limits
  reserve maxVar :=
    .checked (fun solver => solver.intake.checkReserve maxVar) fun solver =>
      ((), { solver with intake := solver.intake.reserve maxVar })
  addClause lits :=
    .checked (fun solver => solver.intake.checkClause lits) fun solver =>
      ((), { solver with
        intake := solver.intake.accept lits
        clauses := solver.clauses.push lits })
  solve := solve oracle
  numVars solver := solver.intake.reserved
  numClauses solver := solver.intake.clauseCount

end Z3Solver

end BoundedPlanning
