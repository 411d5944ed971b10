import BoundedPlanning.Problem

/-!
Plans and their execution.  All actions of a step are checked against the state before the step;
then the step deletes what any of them deletes and adds what any of them adds.
-/

namespace BoundedPlanning

structure PlanStep where
  time : Nat
  actions : List Nat
  deriving DecidableEq, Repr, Inhabited

/-- A sequence of steps, executed in order. -/
structure Plan where
  steps : List PlanStep
  deriving DecidableEq, Repr, Inhabited

inductive SimulationError
  | unknownAction (action : Nat)
  | preconditionViolated (step : Nat) (action : String)
  deriving DecidableEq, Repr

def SimulationError.message : SimulationError → String
  | .unknownAction action => s!"plan references unknown action {actionLabel action}"
  | .preconditionViolated step action => s!"step {step}: preconditions of `{action}` do not hold"

namespace PlanStep

/-- The actions of the step, each known and applicable in the state, or the first that is not. -/
def applicableActions (problem : Problem) (state : State) (step : PlanStep) :
    Except SimulationError (List Action) :=
  step.actions.mapM fun id =>
    match problem.action? id with
    | none => .error (.unknownAction id)
    | some action =>
      if action.isApplicable state then .ok action
      else .error (.preconditionViolated step.time action.name)

/-- The state after actions are taken together: all deletes, then all adds. -/
def applyAll (actions : List Action) (state : State) : State :=
  (state.setAll (actions.flatMap Action.del) false).setAll (actions.flatMap Action.add) true

def execute (problem : Problem) (state : State) (step : PlanStep) : Except SimulationError State :=
  (step.applicableActions problem state).map fun actions => applyAll actions state

end PlanStep

namespace Plan

/-- The state after the steps, taken one after the other from the given state. -/
def executeFrom (problem : Problem) : State → List PlanStep → Except SimulationError State
  | state, [] => .ok state
  | state, step :: rest =>
    match step.execute problem state with
    | .error error => .error error
    | .ok next => executeFrom problem next rest

/-- Execute the plan from the initial state. -/
def simulate (plan : Plan) (problem : Problem) : Except SimulationError State :=
  executeFrom problem problem.init plan.steps

def achievesGoal (plan : Plan) (problem : Problem) : Bool :=
  match plan.simulate problem with
  | .ok state => problem.goal.isSatisfiedBy state
  | .error _ => false

def actions (plan : Plan) : List Nat := plan.steps.flatMap PlanStep.actions

def actionCount (plan : Plan) : Nat := plan.actions.length

/-- The names of those actions of the plan that the problem knows. -/
def actionNames (plan : Plan) (problem : Problem) : List String :=
  plan.actions.filterMap fun id => (problem.action? id).map Action.name

end Plan

end BoundedPlanning
