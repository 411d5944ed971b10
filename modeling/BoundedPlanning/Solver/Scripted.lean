import BoundedPlanning.Solver.Basic

namespace BoundedPlanning

inductive ScriptedAnswer
  | unsat
  | timedOut
  | fail (text : String)
  | sat (model : Model)
  /-- Answer what the solver behind answers. -/
  | passOn
  deriving DecidableEq, Repr

inductive SolverCall
  | reserve (maxVar : Nat)
  | addClause (lits : List Int)
  | solve (assumptions : List Int) (timeout : Option Nat)
  deriving DecidableEq, Repr

structure Scripted (σ : Type) where
  solver : σ
  /-- The answers to the next calls of `solve`; when there are none left, calls are passed on. -/
  script : List ScriptedAnswer
  log : Array SolverCall := #[]

namespace Scripted

variable {σ α : Type}

def passOn (operation : SolverM σ α) : SolverM (Scripted σ) α := fun scripted =>
  let (result, solver) := operation scripted.solver
  (result, { scripted with solver := solver })

def record (call : SolverCall) : SolverM (Scripted σ) Unit :=
  modify fun scripted => { scripted with log := scripted.log.push call }

def nextAnswer : SolverM (Scripted σ) ScriptedAnswer := do
  let scripted ← get
  match scripted.script with
  | [] => return .passOn
  | answer :: rest =>
    set { scripted with script := rest }
    return answer

def backend (behind : Backend σ) : Backend (Scripted σ) where
  name scripted := behind.name scripted.solver
  limits scripted := behind.limits scripted.solver
  reserve maxVar := do
    record (.reserve maxVar)
    passOn (behind.reserve maxVar)
  addClause lits := do
    record (.addClause lits)
    passOn (behind.addClause lits)
  solve assumptions timeout := do
    record (.solve assumptions timeout)
    match ← nextAnswer with
    | .unsat => return .unsat
    | .timedOut => return .timedOut
    | .fail text => throw (.backendFailure text)
    | .sat model => return .sat model
    | .passOn => passOn (behind.solve assumptions timeout)
  numVars scripted := behind.numVars scripted.solver
  numClauses scripted := behind.numClauses scripted.solver

end Scripted

end BoundedPlanning
