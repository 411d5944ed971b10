import BoundedPlanning.Solver.Batsat
import BoundedPlanning.Solver.Learning.Search
import BoundedPlanning.Solver.Reference

namespace BoundedPlanning

def AllHold (clauses : Array (List Int)) (truth : Nat → Bool) : Prop :=
  ∀ clause ∈ clauses, ∃ lit ∈ clause, CodeHolds truth (litCode lit)

structure LearningEngine where
  clauses : Array (List Int) := #[]
  learner : Learner (AllHold clauses) := {}
  maxUsed : Nat := 0
  model : Model := ⟨#[]⟩

namespace LearningEngine

def mention (engine : LearningEngine) (lits : List Int) : LearningEngine :=
  let maxUsed := max engine.maxUsed (highestVar lits)
  { engine with maxUsed := maxUsed, learner := engine.learner.cover maxUsed }

def addClause (engine : LearningEngine) (lits : List Int) : LearningEngine :=
  let engine := engine.mention lits
  { clauses := engine.clauses.push lits
    learner :=
      (engine.learner.strengthen fun _ h clause hclause =>
        h clause (Array.mem_push_of_mem lits hclause)).addGiven lits fun _ h =>
          h lits Array.mem_push_self
    maxUsed := engine.maxUsed
    model := engine.model }

def accepts (engine : LearningEngine) (assumptions : List Int) (model : Model) : Bool :=
  assumptions.all model.satisfies &&
    engine.clauses.all fun clause => clause.any model.satisfies

/-- The solver that decides the clauses by backtracking. -/
def reference (engine : LearningEngine) : ReferenceSolver where
  intake := { limits := {}, reserved := engine.maxUsed }
  clauses := engine.clauses

def backtrack (engine : LearningEngine) (assumptions : List Int) (expired : Assignment → Bool) :
    EngineAnswer × LearningEngine :=
  match engine.reference.decideUnder assumptions expired with
  | .sat model => (.sat, { engine with model := model })
  | .unsat => (.unsat, engine)
  | .timedOut => (.interrupted, engine)

/-- What a verdict and the model that was found come to.  What the learner leaves undecided is
decided by backtracking. -/
def conclude (engine : LearningEngine) (assumptions : List Int) (expired : Assignment → Bool)
    (model : Model) : Verdict (AllHold engine.clauses) (assumptions.map litCode).toArray →
      EngineAnswer × LearningEngine
  | .found (.refuted _) => (.unsat, engine)
  | .found .satisfied =>
    if engine.accepts assumptions model then (.sat, { engine with model := model })
    else engine.backtrack assumptions expired
  | .expired => (.interrupted, engine)
  | .undecided => engine.backtrack assumptions expired

/-- Decide the clauses under assumptions, where the time is up as `expired` says. -/
def decideUnder (engine : LearningEngine) (assumptions : List Int) (expired : Assignment → Bool) :
    EngineAnswer × LearningEngine :=
  let maxUsed := engine.maxUsed
  let (learner, verdict) := engine.learner.search (assumptions.map litCode).toArray
    (fun learner => expired (learner.assignment maxUsed)) engine.clauses.size
  let model := learner.model maxUsed
  { engine with learner := learner.backTo 0 }.conclude assumptions expired model verdict

def solve (clock : Clock) (engine : LearningEngine) (assumptions : List Int)
    (timeout : Option Nat) : EngineAnswer × LearningEngine :=
  let expired := fun assignment => timeout.any fun budget => clock budget assignment
  (engine.mention assumptions).decideUnder assumptions expired

def value (engine : LearningEngine) (var : Nat) : Truth :=
  match engine.model.value? var with
  | some value => .ofBool value
  | none => .unknown

/-- The engine as it is driven; its calls never fail. -/
def operations (clock : Clock) : SatEngine LearningEngine where
  init := {}
  addClause lits engine := (.ok (), engine.addClause lits)
  solve assumptions timeout engine :=
    let (answer, next) := engine.solve clock assumptions timeout
    (.ok answer, next)
  value var engine := .ok (engine.value var)

end LearningEngine

end BoundedPlanning
