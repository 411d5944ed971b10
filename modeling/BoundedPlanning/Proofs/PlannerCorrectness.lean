import BoundedPlanning.Proofs.Deepening
import BoundedPlanning.Proofs.EncodingCorrectness

namespace BoundedPlanning

namespace Problem.EndsAt

variable {problem : Problem} {semantics : StepSemantics} {limits : SolverLimits}
  {maxSteps horizon : Nat} {answer : Except PlanError PlanRun}

theorem eq_overflow (h : problem.EndsAt semantics limits maxSteps horizon answer)
    {error : EncodingError} (hoverflow : problem.overflow? semantics limits horizon = some error) :
    answer = .error (.encoding error) := by
  cases h with
  | overflow hother => rw [Option.some.inj (hother.symm.trans hoverflow)]
  | found hfits => exact absurd (hfits.symm.trans hoverflow) (by simp)
  | exhausted hfits => exact absurd (hfits.symm.trans hoverflow) (by simp)

theorem eq_found (h : problem.EndsAt semantics limits maxSteps horizon answer)
    (hfits : problem.overflow? semantics limits horizon = none)
    (hreaches : problem.Reaches semantics horizon) :
    ∃ plan stats, answer = .ok ⟨.found plan horizon, stats⟩ ∧ plan.Chronological ∧
      (∀ step ∈ plan.steps, step.time < horizon ∧ semantics.Legal problem step.actions) ∧
      plan.achievesGoal problem = true := by
  cases h with
  | overflow hoverflow => exact absurd (hfits.symm.trans hoverflow) (by simp)
  | found _ hplan hsteps hachieves => exact ⟨_, _, rfl, hplan, hsteps, hachieves⟩
  | exhausted _ hnone => exact absurd hreaches hnone

theorem eq_exhausted (h : problem.EndsAt semantics limits maxSteps horizon answer)
    (hfits : problem.overflow? semantics limits horizon = none)
    (hnone : ¬ problem.Reaches semantics horizon) :
    horizon = maxSteps ∧ ∃ stats, answer = .ok ⟨.resourceExhausted maxSteps, stats⟩ := by
  cases h with
  | overflow hoverflow => exact absurd (hfits.symm.trans hoverflow) (by simp)
  | found _ hplan hsteps hachieves =>
      exact absurd (reaches_of_legal hplan hsteps hachieves) hnone
  | exhausted _ _ hlast => exact ⟨hlast, _, rfl⟩

theorem ne_unreachable (h : problem.EndsAt semantics limits maxSteps horizon answer)
    {stats : List HorizonStats} : answer ≠ .ok ⟨.unreachable, stats⟩ := by
  rintro rfl
  cases h

end Problem.EndsAt

/-- The answer was given at the first horizon that ends the deepening. -/
def Problem.Ends (problem : Problem) (semantics : StepSemantics) (limits : SolverLimits)
    (maxSteps : Nat) (answer : Except PlanError PlanRun) : Prop :=
  ∃ final ≤ maxSteps,
    (∀ earlier < final, problem.overflow? semantics limits earlier = none ∧
      ¬ problem.Reaches semantics earlier) ∧
    problem.EndsAt semantics limits maxSteps final answer

namespace Problem.Ends

variable {problem : Problem} {semantics : StepSemantics} {limits : SolverLimits} {maxSteps : Nat}
  {answer : Except PlanError PlanRun}

theorem eq_found (h : problem.Ends semantics limits maxSteps answer) {least : Nat}
    (hle : least ≤ maxSteps) (hreaches : problem.Reaches semantics least)
    (hleast : ∀ earlier < least, ¬ problem.Reaches semantics earlier)
    (hfits : ∀ step ≤ least, problem.overflow? semantics limits step = none) :
    ∃ plan stats, answer = .ok ⟨.found plan least, stats⟩ ∧ plan.Chronological ∧
      (∀ step ∈ plan.steps, step.time < least ∧ semantics.Legal problem step.actions) ∧
      plan.achievesGoal problem = true := by
  obtain ⟨final, hfinal, hearlier, hends⟩ := h
  rcases Nat.lt_trichotomy final least with hlt | rfl | hlt
  · obtain ⟨hlast, -⟩ := hends.eq_exhausted (hfits final hlt.le) (hleast final hlt)
    omega
  · exact hends.eq_found (hfits final le_rfl) hreaches
  · exact absurd hreaches (hearlier least hlt).2

theorem eq_exhausted (h : problem.Ends semantics limits maxSteps answer)
    (hnone : ∀ horizon ≤ maxSteps, ¬ problem.Reaches semantics horizon)
    (hfits : ∀ step ≤ maxSteps, problem.overflow? semantics limits step = none) :
    ∃ stats, answer = .ok ⟨.resourceExhausted maxSteps, stats⟩ := by
  obtain ⟨final, hfinal, -, hends⟩ := h
  exact (hends.eq_exhausted (hfits final hfinal) (hnone final hfinal)).2

theorem eq_overflow (h : problem.Ends semantics limits maxSteps answer) {step : Nat}
    (hle : step ≤ maxSteps) (hleast : ∀ earlier < step, ¬ problem.Reaches semantics earlier)
    (hoverflow : problem.overflow? semantics limits step ≠ none) :
    ∃ first ≤ step, ∃ error,
      (∀ earlier < first, problem.overflow? semantics limits earlier = none) ∧
      problem.overflow? semantics limits first = some error ∧
      answer = .error (.encoding error) := by
  obtain ⟨final, hfinal, hearlier, hends⟩ := h
  have hfirst : final ≤ step := by
    by_contra hlt
    exact hoverflow (hearlier step (Nat.lt_of_not_le hlt)).1
  cases herror : problem.overflow? semantics limits final with
  | some error =>
      exact ⟨final, hfirst, error, fun earlier hlt => (hearlier earlier hlt).1, herror,
        hends.eq_overflow herror⟩
  | none =>
      have hlt : final < step := by
        refine Nat.lt_of_le_of_ne hfirst ?_
        rintro rfl
        exact hoverflow herror
      obtain ⟨hlast, -⟩ := hends.eq_exhausted herror (hleast final hlt)
      omega

theorem ne_unreachable (h : problem.Ends semantics limits maxSteps answer)
    {stats : List HorizonStats} : answer ≠ .ok ⟨.unreachable, stats⟩ := by
  obtain ⟨final, -, -, hends⟩ := h
  exact hends.ne_unreachable

end Problem.Ends

section Planner

variable {σ : Type} {backend : Backend σ} {config : PlannerConfig}
  {books : σ → Intake → List (List Int) → Prop} {limits : SolverLimits} {solver : σ}

theorem planWith_eq_unreachable {problem : Problem} (h : problem.goalPossiblyReachable = false) :
    planWith backend config problem solver = (.ok ⟨.unreachable, []⟩, solver) := by
  rw [planWith, h]
  rfl

theorem exists_planWith_eq (hbackend : backend.KeepsBooks config.timeoutMs? books)
    (hbooks : books solver (.init limits) []) (hlimits : limits.maxVars ≤ variableRoom)
    (problem : Problem) :
    ∃ answer next, planWith backend config problem solver = (answer, next) ∧
      (problem.goalPossiblyReachable = false → answer = .ok ⟨.unreachable, []⟩) ∧
      (problem.goalPossiblyReachable = true →
        problem.Ends config.semantics limits config.maxSteps answer) := by
  cases hpossible : problem.goalPossiblyReachable with
  | false => exact ⟨_, _, planWith_eq_unreachable hpossible, fun _ => rfl, by simp⟩
  | true =>
      obtain ⟨final, hfinal, hearlier, hends | hfails⟩ := deepen_stops hbackend hbooks
      · rw [planWith, if_pos hpossible]
        exact ⟨_, _, rfl, by simp, fun _ => ⟨final, hfinal, hearlier, hends⟩⟩
      · obtain ⟨hfits, hencodes, -⟩ := hfails
        have hvars := (Problem.overflow?_eq_none_iff.mp hfits).1
        exact absurd (Problem.encodes_of_room (hvars.trans hlimits)) hencodes

theorem PlannerConfig.timeoutMs?_eq_none (h : config.timeoutSecs = 0) :
    config.timeoutMs? = none := by
  rw [timeoutMs?, h, if_neg (Nat.lt_irrefl 0)]

/-- With a solver that decides what it is given, the planner answers that the problem is
unreachable exactly when the static test says so.  Otherwise it returns a plan of the least horizon
that has one, or exhausts the horizons, or reports the first step that exceeds a cap, whichever
comes first. -/
theorem planWith_decides (hbackend : backend.KeepsBooks config.timeoutMs? books)
    (hbooks : books solver (.init limits) []) (hlimits : limits.maxVars ≤ variableRoom)
    (problem : Problem) :
    ∃ answer next, planWith backend config problem solver = (answer, next) ∧
      ((∃ stats, answer = .ok ⟨.unreachable, stats⟩) ↔ problem.goalPossiblyReachable = false) ∧
      (problem.goalPossiblyReachable = true →
        (∀ least ≤ config.maxSteps, problem.Reaches config.semantics least →
          (∀ earlier < least, ¬ problem.Reaches config.semantics earlier) →
          (∀ step ≤ least, problem.overflow? config.semantics limits step = none) →
          ∃ plan stats, answer = .ok ⟨.found plan least, stats⟩ ∧ plan.Chronological ∧
            (∀ step ∈ plan.steps,
              step.time < least ∧ config.semantics.Legal problem step.actions) ∧
            plan.achievesGoal problem = true) ∧
        ((∀ horizon ≤ config.maxSteps, ¬ problem.Reaches config.semantics horizon) →
          (∀ step ≤ config.maxSteps, problem.overflow? config.semantics limits step = none) →
          ∃ stats, answer = .ok ⟨.resourceExhausted config.maxSteps, stats⟩) ∧
        (∀ step ≤ config.maxSteps,
          (∀ earlier < step, ¬ problem.Reaches config.semantics earlier) →
          problem.overflow? config.semantics limits step ≠ none →
          ∃ first ≤ step, ∃ error,
            (∀ earlier < first, problem.overflow? config.semantics limits earlier = none) ∧
            problem.overflow? config.semantics limits first = some error ∧
            answer = .error (.encoding error))) ∧
      (∀ last clauses encoder,
        encodeThrough problem config.semantics last = .ok (clauses, encoder) →
          encoder.index.size = problem.variablesThrough config.semantics last ∧
          clauses.length = problem.clausesThrough config.semantics last) ∧
      (config.timeoutSecs = 0 → ∀ clock,
        (ReferenceSolver.backend clock).KeepsBooks config.timeoutMs? ReferenceSolver.Books ∧
          (ReferenceSolver.init limits).Books (.init limits) []) := by
  obtain ⟨answer, next, hplan, hunreachable, hends⟩ :=
    exists_planWith_eq hbackend hbooks hlimits problem
  refine ⟨answer, next, hplan, ?_, fun h => ⟨?_, (hends h).eq_exhausted, ?_⟩, ?_, ?_⟩
  · constructor
    · rintro ⟨stats, hstats⟩
      rw [← Bool.not_eq_true]
      exact fun h => (hends h).ne_unreachable hstats
    · exact fun h => ⟨[], hunreachable h⟩
  · intro least hle hreaches hleast hfits
    exact (hends h).eq_found hle hreaches hleast hfits
  · intro step hle hleast hoverflow
    exact (hends h).eq_overflow hle hleast hoverflow
  · intro last clauses encoder hencode
    obtain ⟨vars, hreads⟩ := Encoder.exists_reads hencode
    exact ⟨hreads.encodedTo.size_eq, Encoder.length_of_encodeThrough hencode⟩
  · intro hsecs clock
    rw [PlannerConfig.timeoutMs?_eq_none hsecs]
    exact ⟨ReferenceSolver.keepsBooks_backend clock, ReferenceSolver.books_init limits⟩

theorem planWith_decides_lamps :
    ∃ plan stats next,
      planWith (ReferenceSolver.backend .patient) { timeoutSecs := 0, semantics := .parallel }
        lamps (.init {}) = (.ok ⟨.found plan 1, stats⟩, next) ∧
      plan.achievesGoal lamps = true := by
  let config : PlannerConfig := { timeoutSecs := 0, semantics := .parallel }
  have hbackend : (ReferenceSolver.backend .patient).KeepsBooks config.timeoutMs?
      ReferenceSolver.Books := ReferenceSolver.keepsBooks_backend .patient
  obtain ⟨answer, next, hplan, -, hdecides, -⟩ :=
    planWith_decides hbackend (ReferenceSolver.books_init {}) (by decide) lamps
  have hreaches : lamps.Reaches .parallel 1 :=
    Problem.reaches_of_legal chronological_lampsPlan legal_lampsPlan rfl
  have hleast : ∀ earlier < 1, ¬ lamps.Reaches .parallel earlier := by
    intro earlier hearlier
    rw [Nat.lt_one_iff.mp hearlier, Problem.reaches_zero_iff]
    decide
  have hfits : ∀ step ≤ 1, lamps.overflow? .parallel {} step = none := by
    decide +kernel
  have hpossible : lamps.goalPossiblyReachable = true := by
    decide +kernel
  obtain ⟨plan, stats, hfound, -, -, hachieves⟩ :=
    (hdecides hpossible).1 1 (by decide) hreaches hleast hfits
  rw [hfound] at hplan
  exact ⟨plan, stats, next, hplan, hachieves⟩

end Planner

end BoundedPlanning
