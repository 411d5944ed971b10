import BoundedPlanning.Encoding.AtMostOne
import BoundedPlanning.Encoding.Interference
import BoundedPlanning.Encoding.VariableIndex

/-!
Problems as clauses, one step at a time.  Step 0 fixes the initial state.  Step `t + 1` has the
actions of time `t` and the facts of time `t + 1` as new variables; its clauses state the
preconditions and effects of the actions, that a fact changes only if an action changes it, and
which actions exclude each other.  The goal is no clause: its literals are assumed when the clauses
are solved.
-/

namespace BoundedPlanning

inductive StepSemantics
  /-- One action at a time. -/
  | sequential
  /-- Any actions that do not interfere. -/
  | parallel
  deriving DecidableEq, Repr, Inhabited

def StepSemantics.text : StepSemantics → String
  | .sequential => "sequential"
  | .parallel => "parallel"

structure StepSize where
  vars : Nat
  clauses : Nat
  deriving DecidableEq, Repr, Inhabited

/-- What the frame clauses of a fact are made from. -/
structure FactChanges where
  fact : Nat
  deleters : List Nat
  adders : List Nat
  deriving DecidableEq, Repr

namespace Problem

def adders (problem : Problem) (fact : Nat) : List Nat :=
  (problem.numberedActions.filter fun (action, _) => action.adds fact).map Prod.snd

/-- The actions that make the fact false, in ascending order. -/
def deleters (problem : Problem) (fact : Nat) : List Nat :=
  (problem.numberedActions.filter fun (action, _) => action.deletes fact).map Prod.snd

def factChanges (problem : Problem) : List FactChanges :=
  problem.factIds.map fun fact => ⟨fact, problem.deleters fact, problem.adders fact⟩

def actionClauseCount (problem : Problem) : Nat :=
  (problem.actions.flatMap fun action =>
    action.pre ++ action.preNeg ++ action.add ++ action.effectiveDel).length

end Problem

/-- What every transition of a problem has in common. -/
structure TransitionScheme where
  factChanges : List FactChanges
  /-- The excluded pairs of actions, when several actions may share a step. -/
  interference : List (Nat × Nat)
  exclusion : StepSize
  clauseCount : Nat

def TransitionScheme.of (problem : Problem) (semantics : StepSemantics) : TransitionScheme :=
  let interference :=
    match semantics with
    | .sequential => []
    | .parallel => problem.interferingPairs
  let exclusion : StepSize :=
    match semantics with
    | .sequential =>
      ⟨ladderAuxCount problem.actionCount, ladderClauseCount problem.actionCount⟩
    | .parallel => ⟨0, interference.length⟩
  { factChanges := problem.factChanges
    interference := interference
    exclusion := exclusion
    clauseCount := problem.actionClauseCount + 2 * problem.factCount + exclusion.clauses }

/-- The variables that the clauses of one transition mention. -/
structure TransitionVars where
  actions : Array Nat
  before : Array Nat
  after : Array Nat
  aux : Array Nat

namespace TransitionVars

def action (vars : TransitionVars) (id : Nat) : Nat := vars.actions[id]?.getD 0

def factBefore (vars : TransitionVars) (fact : Nat) : Nat := vars.before[fact]?.getD 0

def factAfter (vars : TransitionVars) (fact : Nat) : Nat := vars.after[fact]?.getD 0

/-- An action is taken only where its preconditions hold. -/
def preconditions (vars : TransitionVars) (problem : Problem) : List (List Int) :=
  problem.numberedActions.flatMap fun (action, id) =>
    action.pre.map (fun fact =>
      [literal (vars.action id) false, literal (vars.factBefore fact) true]) ++
    action.preNeg.map fun fact =>
      [literal (vars.action id) false, literal (vars.factBefore fact) false]

/-- An action that is taken makes its adds true and its other deletes false. -/
def effects (vars : TransitionVars) (problem : Problem) : List (List Int) :=
  problem.numberedActions.flatMap fun (action, id) =>
    action.add.map (fun fact =>
      [literal (vars.action id) false, literal (vars.factAfter fact) true]) ++
    action.effectiveDel.map fun fact =>
      [literal (vars.action id) false, literal (vars.factAfter fact) false]

/-- A fact stays true unless an action deletes it, and false unless an action adds it. -/
def frame (vars : TransitionVars) (changes : List FactChanges) : List (List Int) :=
  changes.flatMap fun change =>
    let before := vars.factBefore change.fact
    let after := vars.factAfter change.fact
    [literal before false :: literal after true ::
        change.deleters.map (fun id => literal (vars.action id) true),
      literal before true :: literal after false ::
        change.adders.map (fun id => literal (vars.action id) true)]

/-- Actions that exclude each other are not taken together. -/
def exclusion (vars : TransitionVars) (semantics : StepSemantics)
    (interference : List (Nat × Nat)) : List (List Int) :=
  match semantics with
  | .sequential => ladder vars.actions.toList (vars.aux[0]?.getD 0)
  | .parallel => interference.map fun (a, b) =>
    [literal (vars.action a) false, literal (vars.action b) false]

def clauses (vars : TransitionVars) (problem : Problem) (semantics : StepSemantics)
    (scheme : TransitionScheme) : List (List Int) :=
  vars.preconditions problem ++ vars.effects problem ++ vars.frame scheme.factChanges ++
    vars.exclusion semantics scheme.interference

end TransitionVars

/-- The encoding of a problem up to some step. -/
structure Encoder (problem : Problem) (semantics : StepSemantics) where
  /-- What all transitions have in common, computed once. -/
  scheme : TransitionScheme
  scheme_eq : scheme = TransitionScheme.of problem semantics := by rfl
  index : VariableIndex
  /-- The only step that can be encoded next.  Steps have 32 bits; after the last they start over. -/
  nextStep : UInt32

def clausesOfLiterals (lists : List (List Int)) : Except EncodingError (List Clause) :=
  lists.mapM fun lits => (Clause.ofLiterals lits).mapError .invalidClause

namespace Encoder

variable {problem : Problem} {semantics : StepSemantics}

def init (problem : Problem) (semantics : StepSemantics) : Encoder problem semantics where
  scheme := TransitionScheme.of problem semantics
  index := .empty
  nextStep := 0

def horizon? (encoder : Encoder problem semantics) : Option Nat :=
  if encoder.nextStep = 0 then none else some (encoder.nextStep.toNat - 1)

def stepSize (encoder : Encoder problem semantics) (step : Nat) : StepSize :=
  if step = 0 then ⟨problem.factCount, problem.factCount⟩
  else
    ⟨problem.actionCount + problem.factCount + encoder.scheme.exclusion.vars,
      encoder.scheme.clauseCount⟩

/-- Encode the initial state: one unit clause for each fact. -/
def encodeInit (encoder : Encoder problem semantics) :
    Except EncodingError (List Clause × Encoder problem semantics) :=
  if encoder.nextStep ≠ 0 then .error (.outOfOrder encoder.nextStep.toNat 0)
  else do
    let (vars, index) ← encoder.index.idsOf (problem.factIds.map .fact) 0
    let clauses ← clausesOfLiterals <|
      vars.zipIdx.map fun (var, fact) => [literal var (problem.init.holds fact)]
    return (clauses, { encoder with index := index, nextStep := 1 })

/-- The variables of the transition from `step - 1` to `step`: actions and facts before it, facts
after it, auxiliaries; those that are new are handed out in this order. -/
def transitionVars (encoder : Encoder problem semantics) (step : Nat) :
    Except EncodingError (TransitionVars × VariableIndex) := do
  let facts := problem.factIds.map Entity.fact
  let (actions, index) ←
    encoder.index.idsOf ((List.range problem.actionCount).map .action) (step - 1)
  let (before, index) ← index.idsOf facts (step - 1)
  let (after, index) ← index.idsOf facts step
  let (aux, index) ←
    index.idsOf ((List.range encoder.scheme.exclusion.vars).map .aux) (step - 1)
  return (⟨actions.toArray, before.toArray, after.toArray, aux.toArray⟩, index)

/-- Encode the transition from `step - 1` to `step`, whichever step is next. -/
def link (encoder : Encoder problem semantics) (step : Nat) :
    Except EncodingError (List Clause × Encoder problem semantics) := do
  let (vars, index) ← encoder.transitionVars step
  let clauses ← clausesOfLiterals (vars.clauses problem semantics encoder.scheme)
  return (clauses, { encoder with index := index, nextStep := step.toUInt32 + 1 })

/-- Encode the transition to a step, if it is the next one. -/
def encodeTransition (encoder : Encoder problem semantics) (step : UInt32) :
    Except EncodingError (List Clause × Encoder problem semantics) :=
  if step = 0 ∨ step ≠ encoder.nextStep then
    .error (.outOfOrder encoder.nextStep.toNat step.toNat)
  else encoder.link step.toNat

/-- Encode a step: the initial state if it is step 0, else the transition to it. -/
def encodeStep (encoder : Encoder problem semantics) (step : Nat) :
    Except EncodingError (List Clause × Encoder problem semantics) :=
  if step.toUInt32 = 0 then encoder.encodeInit else encoder.encodeTransition step.toUInt32

/-- The literals that together say that the goal holds at the given step. -/
def goalLiterals (encoder : Encoder problem semantics) (horizon : Nat) :
    Except EncodingError (List Int) :=
  problem.goal.literals.mapM fun (fact, value) =>
    match encoder.index.get? (.fact fact) horizon with
    | some var => .ok (literal var value)
    | none => .error (.stepNotEncoded horizon)

end Encoder

end BoundedPlanning
