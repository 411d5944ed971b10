import BoundedPlanning.Proofs.PlanningRounds
import BoundedPlanning.Solver.Scripted

namespace BoundedPlanning

variable {σ α β : Type} {behind : Backend σ} {solver : σ} {log : Array SolverCall}

namespace Scripted

theorem reserve_eq (maxVar : Nat) (script : List ScriptedAnswer) :
    (backend behind).reserve maxVar ⟨solver, script, log⟩ =
      ((behind.reserve maxVar solver).1,
        ⟨(behind.reserve maxVar solver).2, script, log.push (.reserve maxVar)⟩) := by
  rfl

theorem addClause_eq (lits : List Int) (script : List ScriptedAnswer) :
    (backend behind).addClause lits ⟨solver, script, log⟩ =
      ((behind.addClause lits solver).1,
        ⟨(behind.addClause lits solver).2, script, log.push (.addClause lits)⟩) := by
  rfl

theorem solve_eq_of_nil (assumptions : List Int) (timeout : Option Nat) :
    (backend behind).solve assumptions timeout ⟨solver, [], log⟩ =
      ((behind.solve assumptions timeout solver).1,
        ⟨(behind.solve assumptions timeout solver).2, [],
          log.push (.solve assumptions timeout)⟩) := by
  rfl

theorem solve_eq_of_cons (answer : ScriptedAnswer) (rest : List ScriptedAnswer)
    (assumptions : List Int) (timeout : Option Nat) :
    (backend behind).solve assumptions timeout ⟨solver, answer :: rest, log⟩ =
      match answer with
      | .unsat => (.ok .unsat, ⟨solver, rest, log.push (.solve assumptions timeout)⟩)
      | .timedOut => (.ok .timedOut, ⟨solver, rest, log.push (.solve assumptions timeout)⟩)
      | .fail text =>
        (.error (.backendFailure text), ⟨solver, rest, log.push (.solve assumptions timeout)⟩)
      | .sat model => (.ok (.sat model), ⟨solver, rest, log.push (.solve assumptions timeout)⟩)
      | .passOn =>
        ((behind.solve assumptions timeout solver).1,
          ⟨(behind.solve assumptions timeout solver).2, rest,
            log.push (.solve assumptions timeout)⟩) := by
  cases answer <;> rfl

theorem log_solve (assumptions : List Int) (timeout : Option Nat) (scripted : Scripted σ) :
    ((backend behind).solve assumptions timeout scripted).2.log =
      scripted.log.push (.solve assumptions timeout) := by
  obtain ⟨solver, script, log⟩ := scripted
  cases script with
  | nil => rfl
  | cons answer rest => cases answer <;> rfl

/-- Every call is added to the log, and nothing is taken from it. -/
theorem moves_log (behind : Backend σ) :
    (backend behind).Moves fun before after => before.log.toList <+: after.log.toList where
  refl _ := List.prefix_rfl
  trans := List.IsPrefix.trans
  reserve maxVar := fun ⟨solver, script, log⟩ => by
    rw [reserve_eq, Array.toList_push]
    exact List.prefix_append _ _
  addClause lits := fun ⟨solver, script, log⟩ => by
    rw [addClause_eq, Array.toList_push]
    exact List.prefix_append _ _
  solve assumptions timeout scripted := by
    rw [log_solve, Array.toList_push]
    exact List.prefix_append _ _

/-- The computation with the scripted solver gives what the other one gives with the solver behind
it, and leaves that solver in the same state. -/
def Mirrors (observed : PlannerM (Scripted σ) α) (plain : PlannerM σ α) : Prop :=
  ∀ solver log, ∃ logged,
    observed ⟨solver, [], log⟩ = ((plain solver).1, ⟨(plain solver).2, [], logged⟩)

theorem mirrors_pure (a : α) : Mirrors (pure a : PlannerM (Scripted σ) α) (pure a) :=
  fun _ log => ⟨log, rfl⟩

theorem mirrors_lift (result : Except PlanError α) :
    Mirrors (ExceptT.mk (pure result) : PlannerM (Scripted σ) α) (ExceptT.mk (pure result)) :=
  fun _ log => ⟨log, rfl⟩

theorem mirrors_ofEncoding (result : Except EncodingError α) :
    Mirrors (PlannerM.ofEncoding result : PlannerM (Scripted σ) α) (PlannerM.ofEncoding result) :=
  mirrors_lift _

theorem Mirrors.bind {first : PlannerM (Scripted σ) α} {first' : PlannerM σ α}
    {rest : α → PlannerM (Scripted σ) β} {rest' : α → PlannerM σ β} (hfirst : Mirrors first first')
    (hrest : ∀ a, Mirrors (rest a) (rest' a)) : Mirrors (first >>= rest) (first' >>= rest') := by
  intro solver log
  obtain ⟨logged, hlogged⟩ := hfirst solver log
  cases hplain : first' solver with
  | mk result next =>
      rw [hplain] at hlogged
      cases result with
      | error error =>
          rw [exceptT_bind_of_error hlogged, exceptT_bind_of_error hplain]
          exact ⟨logged, rfl⟩
      | ok a =>
          rw [exceptT_bind_of_ok hlogged, exceptT_bind_of_ok hplain]
          exact hrest a next logged

theorem mirrors_get_bind {rest : Scripted σ → PlannerM (Scripted σ) α} {rest' : σ → PlannerM σ α}
    (h : ∀ solver log, Mirrors (rest ⟨solver, [], log⟩) (rest' solver)) :
    Mirrors (get >>= rest) (get >>= rest') :=
  fun solver log => h solver log solver log

theorem mirrors_reserve (maxVar : Nat) :
    Mirrors (PlannerM.ofSolver ((backend behind).reserve maxVar))
      (PlannerM.ofSolver (behind.reserve maxVar)) :=
  fun _ log => ⟨log.push (.reserve maxVar), rfl⟩

theorem mirrors_addClause (lits : List Int) :
    Mirrors (PlannerM.ofSolver ((backend behind).addClause lits))
      (PlannerM.ofSolver (behind.addClause lits)) :=
  fun _ log => ⟨log.push (.addClause lits), rfl⟩

theorem mirrors_solve (assumptions : List Int) (timeout : Option Nat) :
    Mirrors (PlannerM.ofSolver ((backend behind).solve assumptions timeout))
      (PlannerM.ofSolver (behind.solve assumptions timeout)) :=
  fun _ log => ⟨log.push (.solve assumptions timeout), rfl⟩

theorem mirrors_addClauses (clauses : List Clause) :
    Mirrors
      (clauses.forM fun clause => PlannerM.ofSolver ((backend behind).addClause clause.literals))
      (clauses.forM fun clause => PlannerM.ofSolver (behind.addClause clause.literals)) := by
  induction clauses with
  | nil => exact mirrors_pure ()
  | cons clause rest ih => exact (mirrors_addClause clause.literals).bind fun _ => ih

section Planner

variable {problem : Problem} {semantics : StepSemantics} {timeout : Option Nat} {maxSteps : Nat}

theorem mirrors_submitStep (encoder : Encoder problem semantics) (step : Nat) :
    Mirrors (submitStep (backend behind) encoder step) (submitStep behind encoder step) := by
  rw [submitStep, submitStep]
  apply mirrors_get_bind
  intro solver log
  apply (mirrors_ofEncoding _).bind
  intro _
  apply (mirrors_ofEncoding _).bind
  rintro ⟨clauses, next⟩
  dsimp only
  apply (mirrors_reserve _).bind
  intro _
  apply (mirrors_addClauses clauses).bind
  intro _
  exact mirrors_pure next

theorem mirrors_solveHorizon (encoder : Encoder problem semantics) (horizon : Nat) :
    Mirrors (solveHorizon (backend behind) timeout encoder horizon)
      (solveHorizon behind timeout encoder horizon) := by
  rw [solveHorizon, solveHorizon]
  apply (mirrors_ofEncoding _).bind
  intro goal
  apply mirrors_get_bind
  intro solver log
  apply mirrors_get_bind
  intro later laterLog
  apply (mirrors_solve goal timeout).bind
  intro result
  exact mirrors_pure _

theorem mirrors_deepen (encoder : Encoder problem semantics) (horizon : Nat)
    (stats : Array HorizonStats) :
    Mirrors (deepen (backend behind) timeout maxSteps encoder horizon stats)
      (deepen behind timeout maxSteps encoder horizon stats) := by
  -- The number of horizons still to try goes down.
  induction hleft : maxSteps - horizon using Nat.strongRecOn
    generalizing encoder horizon stats with
  | ind left ih =>
      rw [deepen, deepen]
      apply (mirrors_submitStep encoder horizon).bind
      intro submitted
      apply (mirrors_solveHorizon submitted horizon).bind
      rintro ⟨result, entry⟩
      cases result with
      | sat model => exact (mirrors_lift _).bind fun plan => mirrors_pure _
      | timedOut => exact mirrors_pure _
      | unsat =>
          dsimp only
          split
          · exact ih (maxSteps - (horizon + 1)) (by omega) submitted (horizon + 1) _ rfl
          · exact mirrors_pure _

theorem mirrors_planWith (config : PlannerConfig) (problem : Problem) :
    Mirrors (planWith (backend behind) config problem) (planWith behind config problem) := by
  unfold planWith
  split
  · exact mirrors_deepen _ _ _
  · exact mirrors_pure _

end Planner

end Scripted

end BoundedPlanning
