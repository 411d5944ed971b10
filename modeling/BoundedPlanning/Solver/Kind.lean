import BoundedPlanning.Solver.Batsat
import BoundedPlanning.Solver.Reference
import BoundedPlanning.Solver.Z3

namespace BoundedPlanning

inductive BackendKind
  | batsat
  | z3
  | reference
  deriving DecidableEq, Repr, Inhabited

/-- What the program is built with and runs on: the engines, if they are compiled in, and a clock. -/
structure Installation (ε ζ : Type) where
  batsat : Option (SatEngine ε)
  z3 : Option (Z3 ζ)
  clock : Clock
  /-- The longest budget in seconds of which the clock can tell the end. -/
  longestBudget : Nat

/-- A solver of one of the kinds, with what it runs on. -/
inductive BuiltinSolver (ε ζ : Type)
  | batsat (engine : SatEngine ε) (solver : Batsat ε)
  | z3 (oracle : Z3 ζ) (solver : Z3Solver ζ)
  | reference (clock : Clock) (solver : ReferenceSolver)

namespace BackendKind

def text : BackendKind → String
  | .batsat => "batsat"
  | .z3 => "z3"
  | .reference => "reference"

/-- The kind with the given name; upper and lower case letters are the same. -/
def ofText? (text : String) : Option BackendKind :=
  match text.map Char.toLower with
  | "batsat" => some .batsat
  | "z3" => some .z3
  | "reference" => some .reference
  | _ => none

def unknownMessage (text : String) : String :=
  s!"unknown solver backend `{text.map Char.toLower}` (expected batsat, z3 or reference)"

/-- Whether the solvers of the kind ask the clock for the end of their budget. -/
def asksClock : BackendKind → Bool
  | .batsat => true
  | .z3 => false
  | .reference => true

def create {ε ζ : Type} (installation : Installation ε ζ) (kind : BackendKind)
    (limits : SolverLimits) : Except SolverError (BuiltinSolver ε ζ) :=
  match kind with
  | .batsat =>
    match installation.batsat with
    | some engine => .ok (.batsat engine (.init engine limits))
    | none => .error (.backendUnavailable kind.text)
  | .z3 =>
    match installation.z3 with
    | some oracle => .ok (.z3 oracle (.init oracle limits))
    | none => .error (.backendUnavailable kind.text)
  | .reference => .ok (.reference installation.clock (.init limits))

end BackendKind

namespace BuiltinSolver

variable {ε ζ α : Type}

/-- Drive whichever solver it is. -/
def drive (operation : {σ : Type} → Backend σ → SolverM σ α) : SolverM (BuiltinSolver ε ζ) α
  | .batsat engine solver =>
    let (result, next) := operation (Batsat.backend engine) solver
    (result, .batsat engine next)
  | .z3 oracle solver =>
    let (result, next) := operation (Z3Solver.backend oracle) solver
    (result, .z3 oracle next)
  | .reference clock solver =>
    let (result, next) := operation (ReferenceSolver.backend clock) solver
    (result, .reference clock next)

def ask (question : {σ : Type} → Backend σ → σ → α) : BuiltinSolver ε ζ → α
  | .batsat engine solver => question (Batsat.backend engine) solver
  | .z3 oracle solver => question (Z3Solver.backend oracle) solver
  | .reference clock solver => question (ReferenceSolver.backend clock) solver

def backend : Backend (BuiltinSolver ε ζ) where
  name := ask Backend.name
  limits := ask Backend.limits
  reserve maxVar := drive fun backend => backend.reserve maxVar
  addClause lits := drive fun backend => backend.addClause lits
  solve assumptions timeout := drive fun backend => backend.solve assumptions timeout
  numVars := ask Backend.numVars
  numClauses := ask Backend.numClauses

end BuiltinSolver

end BoundedPlanning
