import BoundedPlanning.State
import BoundedPlanning.Pairing
import BoundedPlanning.Text.Digits

/-!
What a propositional variable stands for: a fact, an action or an auxiliary, at a step.  Each such
pair has one key, made by the pairing from the entity's own key and the step.
-/

namespace BoundedPlanning

/-- A thing that has a truth value at every step. -/
inductive Entity
  | fact (id : Nat)
  | action (id : Nat)
  | aux (index : Nat)
  deriving DecidableEq, Repr, Inhabited

namespace Entity

def label : Entity → String
  | .fact id => factLabel id
  | .action id => actionLabel id
  | .aux index => s!"aux{index}"

/-- The name that tells kind and number apart, for diagnostics. -/
def debugText : Entity → String
  | .fact id => s!"Fact(FactId({id}))"
  | .action id => s!"Action(ActionId({id}))"
  | .aux index => s!"Aux({index})"

def number : Entity → Nat
  | .fact id => id
  | .action id => id
  | .aux index => index

/-- The three kinds are interleaved, so keys of different entities differ. -/
def key : Entity → Nat
  | .fact id => 3 * id
  | .action id => 3 * id + 1
  | .aux index => 3 * index + 2

def ofKey (key : Nat) : Entity :=
  match key % 3 with
  | 0 => .fact (key / 3)
  | 1 => .action (key / 3)
  | _ => .aux (key / 3)

@[simp] theorem ofKey_key (entity : Entity) : ofKey entity.key = entity := by
  cases entity with
  | fact id =>
    have h1 : 3 * id % 3 = 0 := by omega
    have h2 : 3 * id / 3 = id := by omega
    simp [key, ofKey, h1, h2]
  | action id =>
    have h1 : (3 * id + 1) % 3 = 1 := by omega
    have h2 : (3 * id + 1) / 3 = id := by omega
    simp [key, ofKey, h1, h2]
  | aux index =>
    have h1 : (3 * index + 2) % 3 = 2 := by omega
    have h2 : (3 * index + 2) / 3 = index := by omega
    simp [key, ofKey, h1, h2]

/-- The key of the entity at a step, if the pair of the two keys fits. -/
def stepKey (entity : Entity) (step : Nat) : Option Nat := pair entity.key step

def ofStepKey (key : Nat) : Entity × Nat := (ofKey (unpair key).1, (unpair key).2)

/-- The entity and the step with the given key, if both are numbers of 32 bits. -/
def ofStepKey? (key : Nat) : Option (Entity × Nat) :=
  let (entity, step) := ofStepKey key
  if entity.number < bound32 ∧ step < bound32 then some (entity, step) else none

end Entity

end BoundedPlanning
