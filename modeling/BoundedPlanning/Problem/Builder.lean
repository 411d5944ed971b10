import BoundedPlanning.Problem
import Std.Data.HashMap

namespace BoundedPlanning

/-- The parts of a problem declared so far.  No more facts or actions are meant to be declared than
there are numbers of 32 bits. -/
structure ProblemBuilder where
  facts : Array String := #[]
  byName : Std.HashMap String Nat := ∅
  actions : Array Action := #[]
  initTrue : Array Nat := #[]
  goalTrue : Array Nat := #[]
  goalFalse : Array Nat := #[]
  deriving Inhabited

namespace ProblemBuilder

def empty : ProblemBuilder := {}

def lookup (builder : ProblemBuilder) (name : String) : Option Nat := builder.byName[name]?

/-- Declare a fact and give it the next number; a name can be declared once. -/
def addFact (builder : ProblemBuilder) (name : String) :
    Except ProblemError (Nat × ProblemBuilder) :=
  if builder.byName.contains name then .error (.duplicateFact name)
  else
    let id := builder.facts.size
    .ok (id, { builder with
      facts := builder.facts.push name
      byName := builder.byName.insert name id })

def addAction (builder : ProblemBuilder) (action : Action) : Nat × ProblemBuilder :=
  (builder.actions.size, { builder with actions := builder.actions.push action })

def addInit (builder : ProblemBuilder) (fact : Nat) : ProblemBuilder :=
  { builder with initTrue := builder.initTrue.push fact }

def addGoalTrue (builder : ProblemBuilder) (fact : Nat) : ProblemBuilder :=
  { builder with goalTrue := builder.goalTrue.push fact }

def addGoalFalse (builder : ProblemBuilder) (fact : Nat) : ProblemBuilder :=
  { builder with goalFalse := builder.goalFalse.push fact }

/-- The problem declared so far.  An undeclared initial fact is reported before anything else. -/
def build (builder : ProblemBuilder) : Except ProblemError Problem :=
  let factCount := builder.facts.size
  match builder.initTrue.toList.find? fun fact => decide (factCount ≤ fact) with
  | some fact => .error (.stateOutOfRange .initialState fact factCount)
  | none =>
    Problem.ofParts builder.facts.toList builder.actions.toList
      (State.ofTrueFacts factCount builder.initTrue.toList)
      ⟨builder.goalTrue.toList, builder.goalFalse.toList⟩

end ProblemBuilder

end BoundedPlanning
