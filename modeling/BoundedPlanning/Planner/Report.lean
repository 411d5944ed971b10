import BoundedPlanning.Calendar.Timestamp
import BoundedPlanning.Planner.Config
import BoundedPlanning.Planner.Outcome

namespace BoundedPlanning

structure ReportStep where
  time : Nat
  actions : List String
  deriving DecidableEq, Repr

structure HorizonRecord where
  horizon : Nat
  vars : Nat
  clauses : Nat
  status : HorizonStatus
  solveTimeMs : Nat
  deriving DecidableEq, Repr

structure PlanReport where
  outcome : String
  message : String
  horizon : Option Nat
  steps : List ReportStep
  plan : Option Plan
  validated : Bool
  semantics : StepSemantics
  backend : BackendKind
  horizons : List HorizonRecord
  totalTimeMs : Nat
  generatedAt : Timestamp
  deriving DecidableEq

/-- The times that a report states, measured outside. -/
structure RunTimes where
  /-- The milliseconds of each call of the solver. -/
  solveMs : List Nat := []
  totalMs : Nat := 0
  finishedAt : Timestamp := .epoch

/-- The step with the names of those of its actions that the problem knows. -/
def PlanStep.named (problem : Problem) (step : PlanStep) : ReportStep :=
  ⟨step.time, step.actions.filterMap fun id => (problem.action? id).map Action.name⟩

namespace PlanReport

def ofRun (problem : Problem) (run : PlanRun) (config : PlannerConfig) (times : RunTimes) :
    PlanReport where
  outcome := run.outcome.kind
  message := run.outcome.message
  horizon := run.outcome.horizon?
  steps :=
    match run.outcome.plan? with
    | some plan => plan.steps.map (PlanStep.named problem)
    | none => []
  plan := run.outcome.plan?
  validated := run.outcome.plan?.any fun plan => plan.achievesGoal problem
  semantics := config.semantics
  backend := config.backend
  horizons := run.stats.zipIdx.map fun (entry, i) =>
    ⟨entry.horizon, entry.vars, entry.clauses, entry.status, times.solveMs[i]?.getD 0⟩
  totalTimeMs := times.totalMs
  generatedAt := times.finishedAt

end PlanReport

end BoundedPlanning
