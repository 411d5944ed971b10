import BoundedPlanning.Encoding.Error
import BoundedPlanning.Model

/-!
What every solver has in common: its caps, its errors, its answers, and the operations by which it
is driven.  A `Backend` is a record of these operations over any type of solver states.
-/

namespace BoundedPlanning

structure SolverLimits where
  maxVars : Nat := 1000000
  maxClauses : Nat := 500000
  deriving DecidableEq, Repr, Inhabited

inductive Contradiction
  | emptyClause
  /-- A unit clause whose opposite was accepted before. -/
  | opposingUnit (lit : Int)
  deriving DecidableEq, Repr

def Contradiction.text : Contradiction → String
  | .emptyClause => "empty clause"
  | .opposingUnit lit => s!"unit {lit} opposes earlier unit {-lit}"

inductive SolverError
  | contradiction (cause : Contradiction)
  | zeroLiteral
  | variableOutOfRange (var reserved : Nat)
  | limitExceeded (resource : Resource) (requested limit : Nat)
  | backendUnavailable (name : String)
  | backendFailure (text : String)
  deriving DecidableEq, Repr

def SolverError.message : SolverError → String
  | .contradiction cause => s!"clause set is contradictory: {cause.text}"
  | .zeroLiteral => "literal 0 is not a valid clause literal"
  | .variableOutOfRange var reserved =>
    s!"variable {var} exceeds the reserved ceiling of {reserved}"
  | .limitExceeded resource requested limit =>
    s!"{resource.singular} cap exceeded: {requested} requested, limit is {limit}"
  | .backendUnavailable name => s!"solver backend `{name}` is not compiled in"
  | .backendFailure text => s!"solver backend error: {text}"

inductive SolveResult
  | sat (model : Model)
  | unsat
  | timedOut
  deriving DecidableEq, Repr

/-- Computations that change a solver and may fail; a failure keeps the changes made before it. -/
abbrev SolverM (σ : Type) := ExceptT SolverError (StateM σ)

/-- Check that a step is allowed and do it; the solver stays as it was if it is not. -/
def SolverM.checked {σ α : Type} (check : σ → Except SolverError Unit) (step : σ → α × σ) :
    SolverM σ α :=
  fun solver =>
    match check solver with
    | .ok () =>
      let (value, next) := step solver
      (.ok value, next)
    | .error error => (.error error, solver)

/-- The operations of a solver with states of type `σ`. -/
structure Backend (σ : Type) where
  name : σ → String
  limits : σ → SolverLimits
  /-- Announce that clauses and assumptions mention variables up to the given one. -/
  reserve : Nat → SolverM σ Unit
  addClause : List Int → SolverM σ Unit
  /-- Decide the accepted clauses together with assumptions, in at most so many milliseconds. -/
  solve : List Int → Option Nat → SolverM σ SolveResult
  /-- The highest variable announced. -/
  numVars : σ → Nat
  numClauses : σ → Nat

/-- The same operations with a solver that runs out of time whenever it is called. -/
def Backend.timingOut {σ : Type} (backend : Backend σ) : Backend σ :=
  { backend with solve := fun _ _ => pure .timedOut }

end BoundedPlanning
