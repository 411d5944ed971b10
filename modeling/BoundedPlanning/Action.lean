import BoundedPlanning.Ascending
import BoundedPlanning.State

/-!
Grounded actions.  An action needs facts to be true or false, deletes facts and adds facts; a fact
that it both deletes and adds ends up true.  `interferesWith` says when two actions must not share
a step.
-/

namespace BoundedPlanning

/-- A grounded action: its name, what it needs true and false, and what it adds and deletes. -/
structure Action where
  name : String
  pre : List Nat
  preNeg : List Nat
  add : List Nat
  del : List Nat
  deriving DecidableEq, Repr, Inhabited

namespace Action

def facts (action : Action) : List Nat :=
  action.pre ++ action.preNeg ++ action.add ++ action.del

/-- The same action with each of its lists in ascending order. -/
def normalize (action : Action) : Action where
  name := action.name
  pre := ascending action.pre
  preNeg := ascending action.preNeg
  add := ascending action.add
  del := ascending action.del

/-- The facts that the action makes false: those it deletes and does not add. -/
def effectiveDel (action : Action) : List Nat :=
  action.del.filter fun fact => !action.add.contains fact

def adds (action : Action) (fact : Nat) : Bool := action.add.contains fact

/-- Whether the action makes the fact false; adding wins over deleting. -/
def deletes (action : Action) (fact : Nat) : Bool :=
  action.del.contains fact && !action.add.contains fact

def isApplicable (action : Action) (state : State) : Bool :=
  action.pre.all state.holds && action.preNeg.all fun fact => !state.holds fact

/-- The state after the action: its deletes are made false, then its adds true. -/
def apply (action : Action) (state : State) : State :=
  (state.setAll action.del false).setAll action.add true

/-- Whether an effect of `a` spoils a precondition of `b` or touches a fact that `b` changes. -/
def clobbers (a b : Action) : Bool :=
  a.effectiveDel.any (fun fact => b.pre.contains fact || b.add.contains fact || b.deletes fact) ||
    a.add.any fun fact => b.preNeg.contains fact || b.add.contains fact || b.deletes fact

def interferesWith (a b : Action) : Bool := a.clobbers b || b.clobbers a

def Normal (action : Action) : Prop :=
  action.pre.Pairwise (· < ·) ∧ action.preNeg.Pairwise (· < ·) ∧
    action.add.Pairwise (· < ·) ∧ action.del.Pairwise (· < ·)

theorem normal_normalize (action : Action) : action.normalize.Normal :=
  ⟨pairwise_ascending _, pairwise_ascending _, pairwise_ascending _, pairwise_ascending _⟩

@[simp] theorem mem_facts_normalize (action : Action) (fact : Nat) :
    fact ∈ action.normalize.facts ↔ fact ∈ action.facts := by
  simp [facts, normalize]

theorem mem_effectiveDel {action : Action} {fact : Nat} :
    fact ∈ action.effectiveDel ↔ action.deletes fact = true := by
  simp [effectiveDel, deletes]

end Action

end BoundedPlanning
