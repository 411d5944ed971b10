import BoundedPlanning.Encoding.Error
import BoundedPlanning.Plan
import BoundedPlanning.Solver.Basic

namespace BoundedPlanning

inductive PlanOutcome
  | found (plan : Plan) (horizon : Nat)
  | timedOut (horizon : Nat)
  | resourceExhausted (maxSteps : Nat)
  | unreachable
  deriving DecidableEq, Repr

namespace PlanOutcome

def plan? : PlanOutcome → Option Plan
  | .found plan _ => some plan
  | _ => none

def horizon? : PlanOutcome → Option Nat
  | .found _ horizon => some horizon
  | _ => none

def isFound (outcome : PlanOutcome) : Bool := outcome.plan?.isSome

def kind : PlanOutcome → String
  | .found _ _ => "found"
  | .timedOut _ => "timed-out"
  | .resourceExhausted _ => "resource-exhausted"
  | .unreachable => "unreachable"

def message : PlanOutcome → String
  | .found plan horizon => s!"plan with {plan.actionCount} action(s) found at horizon {horizon}"
  | .timedOut horizon => s!"solver timed out at horizon {horizon}"
  | .resourceExhausted maxSteps => s!"no plan within {maxSteps} steps"
  | .unreachable => "goal can be simplified to FALSE, no search will solve it"

end PlanOutcome

inductive HorizonStatus
  | sat
  | unsat
  | timedOut
  deriving DecidableEq, Repr, Inhabited

def HorizonStatus.text : HorizonStatus → String
  | .sat => "sat"
  | .unsat => "unsat"
  | .timedOut => "timed-out"

def SolveResult.status : SolveResult → HorizonStatus
  | .sat _ => .sat
  | .unsat => .unsat
  | .timedOut => .timedOut

/-- The size of the problem given to the solver at a horizon, and its answer. -/
structure HorizonStats where
  horizon : Nat
  vars : Nat
  clauses : Nat
  status : HorizonStatus
  deriving DecidableEq, Repr

structure PlanRun where
  outcome : PlanOutcome
  /-- One entry for each horizon at which the solver was called, in order. -/
  stats : List HorizonStats
  deriving DecidableEq, Repr

inductive PlanError
  | encoding (error : EncodingError)
  | solver (error : SolverError)
  | invalidPlan (cause : SimulationError)
  | goalNotReached (horizon : Nat)
  deriving DecidableEq, Repr

def PlanError.message : PlanError → String
  | .encoding error => error.message
  | .solver error => error.message
  | .invalidPlan cause => s!"decoded plan does not execute: {cause.message}"
  | .goalNotReached horizon => s!"decoded plan at horizon {horizon} does not reach the goal"

end BoundedPlanning
