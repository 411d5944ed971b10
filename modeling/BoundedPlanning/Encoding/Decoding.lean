import BoundedPlanning.Encoding.Encoder
import BoundedPlanning.Model
import BoundedPlanning.Plan

namespace BoundedPlanning

structure TimedAction where
  time : Nat
  action : Nat
  deriving DecidableEq, Repr

namespace VariableIndex

/-- What the true variables of a model stand for. -/
def trueEntities (index : VariableIndex) (model : Model) :
    Except EncodingError (List (Entity × Nat)) :=
  model.trueNumbers.mapM index.entityOf

end VariableIndex

/-- The actions below the horizon among the given entities. -/
def selectedActions (entities : List (Entity × Nat)) (horizon : Nat) : List TimedAction :=
  entities.filterMap fun (entity, step) =>
    match entity with
    | .action id => if step < horizon then some ⟨step, id⟩ else none
    | _ => none

/-- The selected actions, one step for each time at which there is one. -/
def stepsOfSelected (selected : List TimedAction) : List PlanStep :=
  (ascending (selected.map TimedAction.time)).map fun time =>
    ⟨time, ((selected.filter (·.time == time)).map TimedAction.action).mergeSort⟩

/-- The plan that a model selects below the horizon. -/
def decode (index : VariableIndex) (semantics : StepSemantics) (model : Model) (horizon : Nat) :
    Except EncodingError Plan := do
  let entities ← index.trueEntities model
  let steps := stepsOfSelected (selectedActions entities horizon)
  match semantics with
  | .parallel => return ⟨steps⟩
  | .sequential =>
    match steps.find? fun step => decide (1 < step.actions.length) with
    | some step => throw (.multipleActionsPerStep step.time step.actions)
    | none => return ⟨steps⟩

end BoundedPlanning
