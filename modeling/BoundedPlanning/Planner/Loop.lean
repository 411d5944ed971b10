import BoundedPlanning.Encoding.Decoding
import BoundedPlanning.Planner.Config
import BoundedPlanning.Planner.Outcome
import BoundedPlanning.Problem.Reachability

/-!
Planning by iterative deepening.  For each horizon from 0 on, the clauses of the next step are
given to the solver, which decides them with the goal assumed.  The first satisfiable horizon gives
the plan, which is executed before it is returned.
-/

namespace BoundedPlanning

/-- Computations of the planner: they drive a solver of type `σ` and may fail. -/
abbrev PlannerM (σ : Type) := ExceptT PlanError (StateM σ)

namespace PlannerM

variable {σ α : Type}

def ofSolver (operation : SolverM σ α) : PlannerM σ α :=
  ExceptT.mk ((fun result => result.mapError PlanError.solver) <$> operation.run)

def ofEncoding (result : Except EncodingError α) : PlannerM σ α :=
  ExceptT.mk (pure (result.mapError PlanError.encoding))

end PlannerM

/-- The next step fits the caps of the solver; variables are checked before clauses.  The counts that a
solver reports are meant to be so small that their sums with the size of a step have 64 bits. -/
def checkCapacity (limits : SolverLimits) (vars clauses : Nat) (size : StepSize) (step : Nat) :
    Except EncodingError Unit :=
  if limits.maxVars < vars + size.vars then
    .error (.encodingOverflow step .variables (vars + size.vars) limits.maxVars)
  else if limits.maxClauses < clauses + size.clauses then
    .error (.encodingOverflow step .clauses (clauses + size.clauses) limits.maxClauses)
  else .ok ()

/-- The plan of a model, if it executes and reaches the goal. -/
def acceptModel {problem : Problem} {semantics : StepSemantics}
    (encoder : Encoder problem semantics) (model : Model) (horizon : Nat) :
    Except PlanError Plan := do
  let plan ← (decode encoder.index semantics model horizon).mapError .encoding
  let reached ← (plan.simulate problem).mapError .invalidPlan
  if problem.goal.isSatisfiedBy reached then return plan
  throw (.goalNotReached horizon)

section Loop

variable {σ : Type} {problem : Problem} {semantics : StepSemantics}

def submitStep (backend : Backend σ) (encoder : Encoder problem semantics) (step : Nat) :
    PlannerM σ (Encoder problem semantics) := do
  let solver ← get
  PlannerM.ofEncoding <| checkCapacity (backend.limits solver) encoder.index.size
    (backend.numClauses solver) (encoder.stepSize step) step
  let (clauses, encoder) ← PlannerM.ofEncoding (encoder.encodeStep step)
  PlannerM.ofSolver (backend.reserve encoder.index.size)
  clauses.forM fun clause => PlannerM.ofSolver (backend.addClause clause.literals)
  return encoder

def solveHorizon (backend : Backend σ) (timeout : Option Nat)
    (encoder : Encoder problem semantics) (horizon : Nat) :
    PlannerM σ (SolveResult × HorizonStats) := do
  let goal ← PlannerM.ofEncoding (encoder.goalLiterals horizon)
  let vars := backend.numVars (← get)
  let clauses := backend.numClauses (← get)
  let result ← PlannerM.ofSolver (backend.solve goal timeout)
  return (result, ⟨horizon, vars, clauses, result.status⟩)

def deepen (backend : Backend σ) (timeout : Option Nat) (maxSteps : Nat)
    (encoder : Encoder problem semantics) (horizon : Nat) (stats : Array HorizonStats) :
    PlannerM σ PlanRun := do
  let encoder ← submitStep backend encoder horizon
  let (result, entry) ← solveHorizon backend timeout encoder horizon
  let stats := stats.push entry
  match result with
  | .sat model =>
    let plan ← ExceptT.mk (pure (acceptModel encoder model horizon))
    return ⟨.found plan horizon, stats.toList⟩
  | .timedOut => return ⟨.timedOut horizon, stats.toList⟩
  | .unsat =>
    if horizon < maxSteps then deepen backend timeout maxSteps encoder (horizon + 1) stats
    else return ⟨.resourceExhausted maxSteps, stats.toList⟩
termination_by maxSteps - horizon

end Loop

/-- Plan with the given solver.  A goal that the static test rules out never reaches the solver. -/
def planWith {σ : Type} (backend : Backend σ) (config : PlannerConfig) (problem : Problem) :
    PlannerM σ PlanRun :=
  if problem.goalPossiblyReachable then
    deepen backend config.timeoutMs? config.maxSteps (.init problem config.semantics) 0 #[]
  else return ⟨.unreachable, []⟩

def plan {ε ζ : Type} (installation : Installation ε ζ) (config : PlannerConfig)
    (problem : Problem) : Except PlanError PlanRun := do
  let solver ← (config.backend.create installation config.limits).mapError .solver
  ((planWith BuiltinSolver.backend config problem).run.run solver).1

end BoundedPlanning
