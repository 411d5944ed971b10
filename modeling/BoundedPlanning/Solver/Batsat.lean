import BoundedPlanning.Solver.Assignment
import BoundedPlanning.Solver.Intake

namespace BoundedPlanning

/-- How a call of an engine ended; it is interrupted when its time is up. -/
inductive EngineAnswer
  | sat
  | unsat
  | interrupted
  deriving DecidableEq, Repr

/-- An incremental SAT engine with states of type `ε`, as it is driven by the solver that hands its
clauses on.  Calls may fail with a text and still change the engine. -/
structure SatEngine (ε : Type) where
  init : ε
  addClause : List Int → ε → Except String Unit × ε
  /-- Decide the clauses under assumptions, in at most so many milliseconds. -/
  solve : List Int → Option Nat → ε → Except String EngineAnswer × ε
  /-- What the model that was found last says of a variable. -/
  value : Nat → ε → Except String Truth

def highestVar (lits : List Int) : Nat := (lits.map Int.natAbs).foldl max 0

/-- The solver that checks clauses and hands them on to an engine. -/
structure Batsat (ε : Type) where
  engine : ε
  intake : Intake
  maxUsed : Nat := 0

namespace Batsat

variable {ε α : Type}

def init (engine : SatEngine ε) (limits : SolverLimits) : Batsat ε where
  engine := engine.init
  intake := .init limits

def mention (solver : Batsat ε) (lits : List Int) : Batsat ε :=
  { solver with maxUsed := max solver.maxUsed (highestVar lits) }

def callEngine (operation : ε → Except String α × ε) : SolverM (Batsat ε) α := fun solver =>
  let (result, next) := operation solver.engine
  (result.mapError .backendFailure, { solver with engine := next })

def extractModel (engine : SatEngine ε) : SolverM (Batsat ε) Model := fun solver =>
  let values := (List.range solver.maxUsed).mapM fun i => engine.value (i + 1) solver.engine
  ((values.map fun values => ⟨(values.map Truth.holds).toArray⟩).mapError .backendFailure, solver)

/-- A clause that is checked counts as accepted even if the engine does not take it. -/
def addClause (engine : SatEngine ε) (lits : List Int) : SolverM (Batsat ε) Unit := do
  SolverM.checked (fun solver => solver.intake.checkClause lits) fun solver =>
    ((), { solver with intake := solver.intake.accept lits })
  callEngine (engine.addClause lits)
  modify (·.mention lits)

def resultOf (engine : SatEngine ε) : EngineAnswer → SolverM (Batsat ε) SolveResult
  | .sat => return .sat (← extractModel engine)
  | .unsat => return .unsat
  | .interrupted => return .timedOut

def solve (engine : SatEngine ε) (assumptions : List Int) (timeout : Option Nat) :
    SolverM (Batsat ε) SolveResult := do
  SolverM.checked (fun solver => solver.intake.checkLiterals assumptions) fun solver =>
    ((), solver.mention assumptions)
  resultOf engine (← callEngine (engine.solve assumptions timeout))

def backend (engine : SatEngine ε) : Backend (Batsat ε) where
  name _ := "batsat"
  limits solver := solver.intake.limits
  reserve maxVar :=
    .checked (fun solver => solver.intake.checkReserve maxVar) fun solver =>
      ((), { solver with intake := solver.intake.reserve maxVar })
  addClause := addClause engine
  solve := solve engine
  numVars solver := solver.intake.reserved
  numClauses solver := solver.intake.clauseCount

end Batsat

end BoundedPlanning
