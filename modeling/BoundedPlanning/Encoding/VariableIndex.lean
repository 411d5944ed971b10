import BoundedPlanning.Encoding.Error
import Std.Data.HashMap

namespace BoundedPlanning

def maxVariable : Nat := 2147483647

/-- The variables handed out so far: the number of each key, and the keys in order of their
numbers. -/
structure VariableIndex where
  ids : Std.HashMap Nat Nat := ∅
  keys : Array Nat := #[]
  deriving Inhabited

namespace VariableIndex

def empty : VariableIndex := {}

/-- How many variables there are, which is also the highest. -/
def size (index : VariableIndex) : Nat := index.keys.size

/-- The variable of the entity at the step, if it was handed out. -/
def get? (index : VariableIndex) (entity : Entity) (step : Nat) : Option Nat :=
  (entity.stepKey step).bind fun key => index.ids[key]?

/-- The variable of the entity at the step; the next free number if it has none yet. -/
def idOf (index : VariableIndex) (entity : Entity) (step : Nat) :
    Except EncodingError (Nat × VariableIndex) :=
  match entity.stepKey step with
  | none => .error (.keyOverflow entity step)
  | some key =>
    match index.ids[key]? with
    | some id => .ok (id, index)
    | none =>
      let id := index.size + 1
      if id ≤ maxVariable then
        .ok (id, { ids := index.ids.insert key id, keys := index.keys.push key })
      else .error .idSpaceExhausted

/-- The variables of several entities at one step, in their order. -/
def idsOf (index : VariableIndex) (entities : List Entity) (step : Nat) :
    Except EncodingError (List Nat × VariableIndex) :=
  match entities with
  | [] => .ok ([], index)
  | entity :: rest => do
    let (id, index) ← index.idOf entity step
    let (ids, index) ← index.idsOf rest step
    return (id :: ids, index)

/-- What a variable stands for. -/
def entityOf (index : VariableIndex) (var : Nat) : Except EncodingError (Entity × Nat) :=
  if var = 0 then .error (.unknownVariable var)
  else
    match index.keys[var - 1]?.bind Entity.ofStepKey? with
    | none => .error (.unknownVariable var)
    | some entry => .ok entry

end VariableIndex

end BoundedPlanning
