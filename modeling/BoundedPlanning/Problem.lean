import BoundedPlanning.Action

namespace BoundedPlanning

/-- A partial assignment to be reached: facts to make true and facts to make false. -/
structure Goal where
  pos : List Nat
  neg : List Nat
  deriving DecidableEq, Repr, Inhabited

namespace Goal

def isSatisfiedBy (goal : Goal) (state : State) : Bool :=
  goal.pos.all state.holds && goal.neg.all fun fact => !state.holds fact

/-- The facts of the goal, each with the value it must have; the true ones come first. -/
def literals (goal : Goal) : List (Nat × Bool) :=
  goal.pos.map (fun fact => (fact, true)) ++ goal.neg.map fun fact => (fact, false)

def size (goal : Goal) : Nat := goal.pos.length + goal.neg.length

def isEmpty (goal : Goal) : Bool := goal.pos.isEmpty && goal.neg.isEmpty

def facts (goal : Goal) : List Nat := goal.pos ++ goal.neg

def normalize (goal : Goal) : Goal := ⟨ascending goal.pos, ascending goal.neg⟩

end Goal

inductive ProblemPart
  | goal
  | initialState
  deriving DecidableEq, Repr

def ProblemPart.text : ProblemPart → String
  | .goal => "goal"
  | .initialState => "initial state"

inductive ProblemError
  | factOutOfRange (action : String) (fact : Nat) (factCount : Nat)
  | stateOutOfRange (part : ProblemPart) (fact : Nat) (factCount : Nat)
  | initSizeMismatch (expected actual : Nat)
  | inconsistentGoal (fact : Nat)
  | duplicateFact (name : String)
  deriving DecidableEq, Repr

def ProblemError.message : ProblemError → String
  | .factOutOfRange action fact factCount =>
    s!"action `{action}` references fact {factLabel fact} outside a universe of {factCount} facts"
  | .stateOutOfRange part fact factCount =>
    s!"{part.text} references fact {factLabel fact} outside a universe of {factCount} facts"
  | .initSizeMismatch expected actual =>
    s!"initial state covers {actual} facts, expected {expected}"
  | .inconsistentGoal fact => s!"goal requires fact {factLabel fact} to be both true and false"
  | .duplicateFact name => s!"duplicate fact name `{name}`"

/-- A well-formed grounded planning problem.  Facts and actions are numbered in 32 bits, so it is
meant to have at most `2 ^ 32` of each. -/
structure Problem where
  facts : List String
  actions : List Action
  init : State
  goal : Goal
  /-- Actions mention declared facts only. -/
  actions_inRange : ∀ action ∈ actions, ∀ fact ∈ action.facts, fact < facts.length
  /-- The lists of every action are strictly ascending. -/
  actions_normal : ∀ action ∈ actions, action.Normal
  init_size : init.size = facts.length
  /-- The goal mentions declared facts only. -/
  goal_inRange : ∀ fact ∈ goal.facts, fact < facts.length
  goal_pos_ascending : goal.pos.Pairwise (· < ·)
  goal_neg_ascending : goal.neg.Pairwise (· < ·)
  /-- No fact is to be both true and false. -/
  goal_consistent : ∀ fact ∈ goal.pos, fact ∉ goal.neg

namespace Problem

/-- The first fact of the action, as written, that is not one of the first `factCount`. -/
def undeclaredFact? (factCount : Nat) (action : Action) : Option ProblemError :=
  (action.facts.find? fun fact => decide (factCount ≤ fact)).map
    fun fact => .factOutOfRange action.name fact factCount

theorem undeclaredFact?_eq_none_iff {factCount : Nat} {action : Action} :
    undeclaredFact? factCount action = none ↔ ∀ fact ∈ action.facts, fact < factCount := by
  simp [undeclaredFact?]

/-- Put a problem together, or name the first of these offences: an action that mentions an
undeclared fact, an initial state of the wrong size, a goal that mentions an undeclared fact, a
fact that is to be both true and false. -/
def ofParts (facts : List String) (actions : List Action) (init : State) (goal : Goal) :
    Except ProblemError Problem :=
  match hActions : actions.findSome? (undeclaredFact? facts.length) with
  | some error => .error error
  | none =>
    if hInit : init.size = facts.length then
      match hGoal : goal.normalize.facts.find? (fun fact => decide (facts.length ≤ fact)) with
      | some fact => .error (.stateOutOfRange .goal fact facts.length)
      | none =>
        match hBoth : goal.normalize.pos.find? (fun fact => goal.normalize.neg.contains fact) with
        | some fact => .error (.inconsistentGoal fact)
        | none => .ok {
            facts := facts
            actions := actions.map Action.normalize
            init := init
            goal := goal.normalize
            actions_inRange := by
              intro action hAction fact hFact
              obtain ⟨written, hWritten, rfl⟩ := List.mem_map.1 hAction
              exact undeclaredFact?_eq_none_iff.1
                (List.findSome?_eq_none_iff.1 hActions written hWritten) fact
                ((Action.mem_facts_normalize written fact).1 hFact)
            actions_normal := by
              intro action hAction
              obtain ⟨written, _, rfl⟩ := List.mem_map.1 hAction
              exact written.normal_normalize
            init_size := hInit
            goal_inRange := by simpa using List.find?_eq_none.1 hGoal
            goal_pos_ascending := pairwise_ascending _
            goal_neg_ascending := pairwise_ascending _
            goal_consistent := by simpa using List.find?_eq_none.1 hBoth }
    else .error (.initSizeMismatch facts.length init.size)

def factCount (problem : Problem) : Nat := problem.facts.length

def actionCount (problem : Problem) : Nat := problem.actions.length

/-- The numbers of the declared facts, of which there are no more than numbers of 32 bits. -/
def factIds (problem : Problem) : List Nat := List.range problem.factCount

def factName? (problem : Problem) (fact : Nat) : Option String := problem.facts[fact]?

def action? (problem : Problem) (id : Nat) : Option Action := problem.actions[id]?

/-- The actions, each with its number; there are no more of them than numbers of 32 bits. -/
def numberedActions (problem : Problem) : List (Action × Nat) := problem.actions.zipIdx

def initSatisfiesGoal (problem : Problem) : Bool := problem.goal.isSatisfiedBy problem.init

theorem mem_numberedActions {problem : Problem} {action : Action} {id : Nat} :
    (action, id) ∈ problem.numberedActions ↔ problem.action? id = some action :=
  List.mk_mem_zipIdx_iff_getElem?

end Problem

end BoundedPlanning
