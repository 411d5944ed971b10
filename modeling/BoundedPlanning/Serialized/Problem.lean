import BoundedPlanning.Json.Writer
import BoundedPlanning.Plan
import BoundedPlanning.Serialized.Fields

namespace BoundedPlanning

open JsonValue

def numbersJson (numbers : List Nat) : JsonValue := .list .natural numbers

def numbersOfJson? (value : JsonValue) : Option (List Nat) := value.list? nat32?

namespace Action

def toJson (action : Action) : JsonValue :=
  .record [("name", .text action.name), ("pre", numbersJson action.pre),
    ("pre_neg", numbersJson action.preNeg), ("add", numbersJson action.add),
    ("del", numbersJson action.del)]

def ofJson? (value : JsonValue) : Option Action := do
  let fields ← JsonFields.ofValue? ["name", "pre", "pre_neg", "add", "del"] value
  return {
    name := ← fields.required 0 text?
    pre := ← fields.required 1 numbersOfJson?
    preNeg := ← fields.withDefault 2 numbersOfJson? []
    add := ← fields.required 3 numbersOfJson?
    del := ← fields.required 4 numbersOfJson? }

end Action

namespace Goal

def toJson (goal : Goal) : JsonValue :=
  .record [("pos", numbersJson goal.pos), ("neg", numbersJson goal.neg)]

def ofJson? (value : JsonValue) : Option Goal := do
  let fields ← JsonFields.ofValue? ["pos", "neg"] value
  return {
    pos := ← fields.required 0 numbersOfJson?
    neg := ← fields.withDefault 1 numbersOfJson? [] }

end Goal

namespace State

def toJson (state : State) : JsonValue := .record [("values", .list .bool state.values.toList)]

def ofJson? (value : JsonValue) : Option State := do
  let fields ← JsonFields.ofValue? ["values"] value
  return ⟨(← fields.required 0 (list? bool?)).toArray⟩

end State

namespace PlanStep

def toJson (step : PlanStep) : JsonValue :=
  .record [("time", .natural step.time), ("actions", numbersJson step.actions)]

def ofJson? (value : JsonValue) : Option PlanStep := do
  let fields ← JsonFields.ofValue? ["time", "actions"] value
  return {
    time := ← fields.required 0 nat32?
    actions := ← fields.required 1 numbersOfJson? }

end PlanStep

namespace Plan

def toJson (plan : Plan) : JsonValue := .record [("steps", .list PlanStep.toJson plan.steps)]

def ofJson? (value : JsonValue) : Option Plan := do
  let fields ← JsonFields.ofValue? ["steps"] value
  return { steps := ← fields.required 0 (list? PlanStep.ofJson?) }

end Plan

end BoundedPlanning
