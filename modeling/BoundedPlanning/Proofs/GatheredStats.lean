import BoundedPlanning.Proofs.PlanningRounds

namespace BoundedPlanning

section Deepening

variable {σ : Type} {problem : Problem} {semantics : StepSemantics}

def gatherFrom (backend : Backend σ) (timeout : Option Nat) (maxSteps : Nat)
    (encoder : Encoder problem semantics) (horizon : Nat) (stats : Array HorizonStats)
    (solver : σ) : Array HorizonStats :=
  match submitStep backend encoder horizon solver with
  | (.error _, _) => stats
  | (.ok submitted, middle) =>
    match solveHorizon backend timeout submitted horizon middle with
    | (.error _, _) => stats
    | (.ok (result, entry), next) =>
      if result = .unsat ∧ horizon < maxSteps then
        gatherFrom backend timeout maxSteps submitted (horizon + 1) (stats.push entry) next
      else stats.push entry
termination_by maxSteps - horizon

variable {backend : Backend σ} {timeout : Option Nat} {maxSteps : Nat}
  {encoder submitted : Encoder problem semantics} {horizon : Nat} {stats : Array HorizonStats}
  {solver middle next : σ} {error : PlanError}

theorem gatherFrom_of_submitStep_error
    (h : submitStep backend encoder horizon solver = (.error error, next)) :
    gatherFrom backend timeout maxSteps encoder horizon stats solver = stats := by
  rw [gatherFrom, h]

theorem gatherFrom_of_solveHorizon_error
    (hsubmit : submitStep backend encoder horizon solver = (.ok submitted, middle))
    (h : solveHorizon backend timeout submitted horizon middle = (.error error, next)) :
    gatherFrom backend timeout maxSteps encoder horizon stats solver = stats := by
  rw [gatherFrom, hsubmit]
  simp only [h]

theorem gatherFrom_of_solveHorizon_ok {result : SolveResult} {entry : HorizonStats}
    (hsubmit : submitStep backend encoder horizon solver = (.ok submitted, middle))
    (h : solveHorizon backend timeout submitted horizon middle = (.ok (result, entry), next)) :
    gatherFrom backend timeout maxSteps encoder horizon stats solver =
      if result = .unsat ∧ horizon < maxSteps then
        gatherFrom backend timeout maxSteps submitted (horizon + 1) (stats.push entry) next
      else stats.push entry := by
  rw [gatherFrom, hsubmit]
  simp only [h]

theorem prefix_gatherFrom :
    stats.toList <+: (gatherFrom backend timeout maxSteps encoder horizon stats solver).toList := by
  fun_induction gatherFrom with
  | case1 => exact List.prefix_rfl
  | case2 => exact List.prefix_rfl
  | case3 horizon stats solver _ _ _ _ result entry _ _ _ ih =>
      refine List.IsPrefix.trans ?_ ih
      simp
  | case4 => simp

theorem stats_eq_gatherFrom {run : PlanRun}
    (h : deepen backend timeout maxSteps encoder horizon stats solver = (.ok run, next)) :
    run.stats = (gatherFrom backend timeout maxSteps encoder horizon stats solver).toList := by
  fun_induction gatherFrom with
  | case1 _ _ _ _ _ _ hsubmit =>
      rw [deepen_of_submitStep_error hsubmit] at h
      cases h
  | case2 _ _ _ _ _ _ hsubmit _ _ hsolve =>
      rw [deepen_of_solveHorizon_error hsubmit hsolve] at h
      cases h
  | case3 _ _ _ _ _ _ hsubmit _ _ _ hsolve hnext ih =>
      obtain ⟨rfl, hlt⟩ := hnext
      rw [deepen_of_solveHorizon_ok hsubmit hsolve, afterSolving, if_pos hlt] at h
      exact ih h
  | case4 _ _ _ _ _ _ hsubmit result _ _ hsolve hlast =>
      rw [deepen_of_solveHorizon_ok hsubmit hsolve] at h
      exact (afterSolving_cases hlast h).1

end Deepening

section Planner

variable {σ : Type} {backend : Backend σ} {config : PlannerConfig} {problem : Problem}
  {solver state next : σ}

def gatheredStats (backend : Backend σ) (config : PlannerConfig) (problem : Problem) (solver : σ) :
    List HorizonStats :=
  if problem.goalPossiblyReachable then
    (gatherFrom backend config.timeoutMs? config.maxSteps (.init problem config.semantics) 0 #[]
      solver).toList
  else []

theorem stats_eq_gatheredStats {run : PlanRun}
    (h : planWith backend config problem solver = (.ok run, next)) :
    run.stats = gatheredStats backend config problem solver := by
  cases hpossible : problem.goalPossiblyReachable with
  | false =>
      rw [planWith, hpossible] at h
      cases h
      rw [gatheredStats, hpossible]
      rfl
  | true =>
      rw [planWith, if_pos hpossible] at h
      rw [gatheredStats, if_pos hpossible]
      exact stats_eq_gatherFrom h

theorem ComesTo.gatheredStats_eq {horizon : Nat} {encoder : Encoder problem config.semantics}
    {stats : Array HorizonStats}
    (h : ComesTo backend config problem solver horizon encoder stats state) :
    gatheredStats backend config problem solver =
      (gatherFrom backend config.timeoutMs? config.maxSteps encoder horizon stats
        state).toList := by
  induction h with
  | start hpossible => rw [gatheredStats, if_pos hpossible]
  | next _ hsubmit hsolve hlt ih =>
      rw [ih, gatherFrom_of_solveHorizon_ok hsubmit hsolve, if_pos ⟨rfl, hlt⟩]

end Planner

end BoundedPlanning
