import BoundedPlanning.Proofs.Submission

/-!
The planning loop, horizon by horizon.  Whenever a step is submitted the solver has accepted exactly
the clauses of the steps so far, so its answer decides whether the horizon has a plan.
-/

namespace BoundedPlanning

variable {σ : Type} {backend : Backend σ} {timeout : Option Nat}
  {books : σ → Intake → List (List Int) → Prop} {limits : SolverLimits} {problem : Problem}
  {semantics : StepSemantics} {last horizon maxSteps : Nat} {encoder : Encoder problem semantics}
  {solver : σ} {clauses : List Clause} {intake : Intake}

/-- What is known once the solver has answered at a horizon. -/
structure Answered (problem : Problem) (semantics : StepSemantics) (horizon : Nat)
    (encoder : Encoder problem semantics) (result : SolveResult) : Prop where
  sat : ∀ model, result = .sat model → ∃ plan, acceptModel encoder model horizon = .ok plan ∧
    plan.Chronological ∧
    (∀ step ∈ plan.steps, step.time < horizon ∧ semantics.Legal problem step.actions) ∧
    plan.achievesGoal problem = true
  unsat : result = .unsat → ¬ problem.Reaches semantics horizon
  ne_timedOut : result ≠ .timedOut

theorem Submitted.exists_solveHorizon (hbackend : backend.KeepsBooks timeout books)
    (hbooks : books solver intake (clauses.map Clause.literals))
    (h : Submitted limits last encoder clauses intake) :
    ∃ result entry next, solveHorizon backend timeout encoder last solver =
        (.ok (result, entry), next) ∧
      books next intake (clauses.map Clause.literals) ∧
      Answered problem semantics last encoder result := by
  obtain ⟨goal, hgoal, hcheck⟩ := h.checkLiterals
  obtain ⟨result, next, hsolve, hnext, hdecides⟩ := hbackend.solve hbooks goal hcheck
  rw [h.reserved_eq] at hdecides
  refine ⟨result, _, next, solveHorizon_of_ok hgoal hsolve, hnext, ?_⟩
  constructor
  · rintro model rfl
    exact exists_acceptModel_eq_ok h.encode_eq hgoal hdecides.2 hdecides.1
  · rintro rfl hreaches
    obtain ⟨value, hmodels⟩ := exists_models_of_reaches h.encode_eq hgoal hreaches
    exact hdecides value hmodels
  · rintro rfl
    exact hdecides

inductive Problem.EndsAt (problem : Problem) (semantics : StepSemantics) (limits : SolverLimits)
    (maxSteps horizon : Nat) : Except PlanError PlanRun → Prop
  | overflow {error : EncodingError}
      (hoverflow : problem.overflow? semantics limits horizon = some error) :
      problem.EndsAt semantics limits maxSteps horizon (.error (.encoding error))
  | found {plan : Plan} {stats : List HorizonStats}
      (hfits : problem.overflow? semantics limits horizon = none) (hplan : plan.Chronological)
      (hsteps : ∀ step ∈ plan.steps,
        step.time < horizon ∧ semantics.Legal problem step.actions)
      (hachieves : plan.achievesGoal problem = true) :
      problem.EndsAt semantics limits maxSteps horizon (.ok ⟨.found plan horizon, stats⟩)
  | exhausted {stats : List HorizonStats}
      (hfits : problem.overflow? semantics limits horizon = none)
      (hnone : ¬ problem.Reaches semantics horizon) (hlast : horizon = maxSteps) :
      problem.EndsAt semantics limits maxSteps horizon (.ok ⟨.resourceExhausted maxSteps, stats⟩)

/-- The deepening fails at a horizon that exceeds no cap but cannot be encoded. -/
def Problem.FailsAt (problem : Problem) (semantics : StepSemantics) (limits : SolverLimits)
    (horizon : Nat) (answer : Except PlanError PlanRun) : Prop :=
  problem.overflow? semantics limits horizon = none ∧ ¬ problem.Encodes semantics horizon ∧
    ∃ error, answer = .error (.encoding error)

/-- The answer was given at the first horizon at which the deepening ends or fails. -/
def Problem.Stops (problem : Problem) (semantics : StepSemantics) (limits : SolverLimits)
    (maxSteps : Nat) (answer : Except PlanError PlanRun) : Prop :=
  ∃ final ≤ maxSteps,
    (∀ earlier < final, problem.overflow? semantics limits earlier = none ∧
      ¬ problem.Reaches semantics earlier) ∧
    (problem.EndsAt semantics limits maxSteps final answer ∨
      problem.FailsAt semantics limits final answer)

/-- At a horizon the deepening ends or fails, or it goes on to the next with that step submitted. -/
theorem Ready.deepen_round (hbackend : backend.KeepsBooks timeout books)
    (hbooks : books solver intake (clauses.map Clause.literals))
    (h : Ready limits horizon encoder clauses intake) (hle : horizon ≤ maxSteps)
    (stats : Array HorizonStats) :
    (problem.EndsAt semantics limits maxSteps horizon
        (deepen backend timeout maxSteps encoder horizon stats solver).1 ∨
      problem.FailsAt semantics limits horizon
        (deepen backend timeout maxSteps encoder horizon stats solver).1) ∨
      horizon < maxSteps ∧ problem.overflow? semantics limits horizon = none ∧
        ¬ problem.Reaches semantics horizon ∧
        ∃ (next : Encoder problem semantics) (nextStats : Array HorizonStats) (nextSolver : σ)
          (nextClauses : List Clause) (nextIntake : Intake),
          Ready limits (horizon + 1) next nextClauses nextIntake ∧
          books nextSolver nextIntake (nextClauses.map Clause.literals) ∧
          deepen backend timeout maxSteps encoder horizon stats solver =
            deepen backend timeout maxSteps next (horizon + 1) nextStats nextSolver := by
  have hnoted : Noted books solver intake (submissionCalls intake.reserved clauses) := by
    rw [Noted, filterMap_submissionCalls]
    exact hbooks
  cases hfits : problem.overflow? semantics limits horizon with
  | some error =>
      left; left
      rw [deepen_of_submitStep_error (h.submitStep_of_overflow hbackend.takes hnoted hfits)]
      exact .overflow hfits
  | none =>
  by_cases hencodes : problem.Encodes semantics horizon
  case neg =>
    obtain ⟨error, herror⟩ :=
      h.submitStep_of_not_encodes hbackend.takes hnoted hencodes hfits
    left; right
    exact ⟨hfits, hencodes, error, by rw [deepen_of_submitStep_error herror]⟩
  obtain ⟨next, middle, delta, nextIntake, hsubmit, hsubmitted, hstep⟩ :=
    h.exists_submitStep hbackend.takes hnoted hencodes hfits
  have hmiddle : books middle nextIntake ((clauses ++ delta).map Clause.literals) := by
    rw [Noted, List.filterMap_append, filterMap_submissionCalls, filterMap_submissionCalls,
      ← List.map_append] at hsubmitted
    exact hsubmitted
  obtain ⟨result, entry, nextSolver, hsolve, hsolved, hanswered⟩ :=
    hstep.exists_solveHorizon hbackend hmiddle
  rw [deepen_of_solveHorizon_ok hsubmit hsolve]
  cases result with
  | sat model =>
      left; left
      obtain ⟨plan, haccept, hplan, hsteps, hachieves⟩ := hanswered.sat model rfl
      rw [afterSolving, haccept]
      exact .found hfits hplan hsteps hachieves
  | timedOut => exact absurd rfl hanswered.ne_timedOut
  | unsat =>
      have hnone := hanswered.unsat rfl
      rw [afterSolving]
      rcases Nat.lt_or_eq_of_le hle with hlt | hlast
      · right
        rw [if_pos hlt]
        exact ⟨hlt, rfl, hnone, next, _, nextSolver, _, nextIntake, hstep.ready, hsolved, rfl⟩
      · left; left
        rw [if_neg (Nat.not_lt_of_le hlast.ge)]
        exact .exhausted hfits hnone hlast

theorem deepen_stops (hbackend : backend.KeepsBooks timeout books)
    (hbooks : books solver (.init limits) []) :
    problem.Stops semantics limits maxSteps
      (deepen backend timeout maxSteps (.init problem semantics) 0 #[] solver).1 := by
  refine deepen_induction
    (fun horizon encoder _ solver =>
      (∃ clauses intake, Ready limits horizon encoder clauses intake ∧
        books solver intake (clauses.map Clause.literals)) ∧
      ∀ earlier < horizon, problem.overflow? semantics limits earlier = none ∧
        ¬ problem.Reaches semantics earlier)
    (fun outcome => problem.Stops semantics limits maxSteps outcome.1)
    ?_ (Nat.zero_le maxSteps) ⟨⟨[], .init limits, ready_init, hbooks⟩, by simp⟩
  rintro horizon encoder stats solver hle ⟨⟨clauses, intake, hready, hbooks⟩, hearlier⟩
  rcases hready.deepen_round hbackend hbooks hle stats with hends |
    ⟨hlt, hfits, hnone, next, nextStats, nextSolver, nextClauses, nextIntake, hnext, hnextBooks,
      heq⟩
  · exact Or.inl ⟨horizon, hle, hearlier, hends⟩
  · refine Or.inr ⟨hlt, next, nextStats, nextSolver,
      ⟨⟨nextClauses, nextIntake, hnext, hnextBooks⟩, fun earlier hbefore => ?_⟩, heq⟩
    rcases Nat.lt_succ_iff_lt_or_eq.mp hbefore with hlower | rfl
    · exact hearlier earlier hlower
    · exact ⟨hfits, hnone⟩

end BoundedPlanning
