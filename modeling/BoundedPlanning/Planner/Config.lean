import BoundedPlanning.Encoding.Encoder
import BoundedPlanning.Solver.Kind

namespace BoundedPlanning

structure PlannerConfig where
  /-- The budget of each call of the solver in seconds; 0 for none. -/
  timeoutSecs : Nat := 300
  /-- The last horizon that is tried. -/
  maxSteps : Nat := 100
  semantics : StepSemantics := .sequential
  limits : SolverLimits := {}
  backend : BackendKind := .batsat
  deriving DecidableEq, Repr, Inhabited

/-- The budget of each call of the solver in milliseconds, if there is one. -/
def PlannerConfig.timeoutMs? (config : PlannerConfig) : Option Nat :=
  if 0 < config.timeoutSecs then some (config.timeoutSecs * 1000) else none

end BoundedPlanning
