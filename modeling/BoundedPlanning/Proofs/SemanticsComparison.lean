import BoundedPlanning.Proofs.DecodedPlans
import BoundedPlanning.Proofs.PlannerCorrectness
import BoundedPlanning.Proofs.RelaxedReachability
import BoundedPlanning.Proofs.Serialization

namespace BoundedPlanning

variable {problem : Problem} {horizon : Nat}

section Plans

variable {plan : Plan}

/-- The plan with its actions taken one at a time, in execution order. -/
def Plan.oneByOne (plan : Plan) : Plan :=
  ⟨plan.actions.zipIdx.map fun (id, time) => ⟨time, [id]⟩⟩

theorem Plan.oneByOne_linearizes (plan : Plan) : plan.oneByOne.Linearizes plan where
  single := by
    intro step hstep
    obtain ⟨⟨id, time⟩, -, rfl⟩ := List.mem_map.mp hstep
    exact ⟨id, rfl⟩
  exists_orders := by
    refine ⟨plan.steps.map PlanStep.actions, perm_actions plan.steps, ?_⟩
    rw [← List.flatMap_def, ← actions, oneByOne, actions, List.flatMap_map]
    calc
      _ = plan.actions.zipIdx.map Prod.fst := List.map_eq_flatMap.symm
      _ = plan.actions := List.zipIdx_map_fst 0 _

theorem Plan.oneByOne_chronological (plan : Plan) : plan.oneByOne.Chronological := by
  rw [Chronological, oneByOne, List.pairwise_map]
  have htimes : (plan.actions.zipIdx.map Prod.snd).Pairwise (· < ·) := by
    rw [List.zipIdx_map_snd]
    exact List.pairwise_lt_range'
  exact List.pairwise_map.mp htimes

theorem Plan.mem_oneByOne {step : PlanStep} (h : step ∈ plan.oneByOne.steps) :
    step.time < plan.actionCount ∧ ∃ id, step.actions = [id] := by
  obtain ⟨⟨id, time⟩, hmem, rfl⟩ := List.mem_map.mp h
  have hget := List.mk_mem_zipIdx_iff_getElem?.mp hmem
  exact ⟨(List.getElem?_eq_some_iff.mp hget).1, id, rfl⟩

theorem Plan.achievesGoal_oneByOne
    (hfree : ∀ step ∈ plan.steps, step.actions.Pairwise problem.Independent)
    (hachieves : plan.achievesGoal problem = true) : plan.oneByOne.achievesGoal problem = true := by
  obtain ⟨final, hfinal, hgoal⟩ := achievesGoal_iff.mp hachieves
  exact achievesGoal_iff.mpr ⟨final, plan.oneByOne_linearizes.simulate hfinal hfree, hgoal⟩

/-- Parallel steps of actions that do not interfere need as many sequential steps as there are
actions. -/
theorem Plan.reaches_actionCount
    (hsteps : ∀ step ∈ plan.steps, StepSemantics.parallel.Legal problem step.actions)
    (hachieves : plan.achievesGoal problem = true) :
    problem.Reaches .sequential plan.actionCount := by
  refine ⟨plan.oneByOne, plan.oneByOne_chronological, fun step hstep => mem_oneByOne hstep, ?_⟩
  refine achievesGoal_oneByOne (fun step hstep => ?_) hachieves
  exact (hsteps step hstep).2.imp fun hij => hij.2

theorem Problem.Reaches.parallel (h : problem.Reaches .sequential horizon) :
    problem.Reaches .parallel horizon := by
  obtain ⟨plan, hplan, hsteps, hachieves⟩ := h
  refine ⟨plan, hplan, fun step hstep => ?_, hachieves⟩
  obtain ⟨htime, id, hid⟩ := hsteps step hstep
  refine ⟨htime, fun i hi j hj hne => ?_⟩
  rw [hid, List.mem_singleton] at hi hj
  exact absurd (hi.trans hj.symm) hne

end Plans

section Answers

variable {config : PlannerConfig} {limits : SolverLimits} {answer : Except PlanError PlanRun}
  {plan : Plan}

/-- The planner gives the answer with some solver that decides what it is given. -/
def Problem.Answers (problem : Problem) (config : PlannerConfig) (limits : SolverLimits)
    (answer : Except PlanError PlanRun) : Prop :=
  ∃ (σ : Type) (backend : Backend σ) (books : σ → Intake → List (List Int) → Prop) (solver : σ),
    backend.KeepsBooks config.timeoutMs? books ∧ books solver (.init limits) [] ∧
      (planWith backend config problem solver).1 = answer

def Found (answer : Except PlanError PlanRun) (plan : Plan) (horizon : Nat) : Prop :=
  ∃ stats, answer = .ok ⟨.found plan horizon, stats⟩

/-- The run was stopped neither by a failure nor by the number of steps. -/
def Unhindered (answer : Except PlanError PlanRun) : Prop :=
  ∃ run, answer = .ok run ∧ ∀ steps, run.outcome ≠ .resourceExhausted steps

theorem Problem.Answers.stops (h : problem.Answers config limits answer)
    (hpossible : problem.goalPossiblyReachable = true) :
    problem.Stops config.semantics limits config.maxSteps answer := by
  obtain ⟨σ, backend, books, solver, hbackend, hbooks, rfl⟩ := h
  rw [planWith, if_pos hpossible]
  exact deepen_stops hbackend hbooks

theorem Problem.Answers.eq_unreachable (h : problem.Answers config limits answer)
    (hruledOut : problem.goalPossiblyReachable = false) : answer = .ok ⟨.unreachable, []⟩ := by
  obtain ⟨σ, backend, books, solver, -, -, rfl⟩ := h
  rw [planWith_eq_unreachable hruledOut]

/-- A plan that is found is right, and its horizon is the least that has one. -/
theorem Problem.Answers.of_found (h : problem.Answers config limits answer)
    (hfound : Found answer plan horizon) :
    plan.Chronological ∧
      (∀ step ∈ plan.steps, step.time < horizon ∧ config.semantics.Legal problem step.actions) ∧
      plan.achievesGoal problem = true ∧
      ∀ earlier < horizon, ¬ problem.Reaches config.semantics earlier := by
  obtain ⟨stats, rfl⟩ := hfound
  cases hpossible : problem.goalPossiblyReachable with
  | false => cases h.eq_unreachable hpossible
  | true =>
      obtain ⟨final, -, hearlier, hends | ⟨-, -, error, herror⟩⟩ := h.stops hpossible
      · cases hends with
        | found _ hplan hsteps hachieves =>
            exact ⟨hplan, hsteps, hachieves, fun earlier hlt => (hearlier earlier hlt).2⟩
      · cases herror

theorem Problem.Answers.exists_found (h : problem.Answers config limits answer)
    (hreaches : problem.Reaches config.semantics horizon) (hle : horizon ≤ config.maxSteps)
    (hfits : ∀ step ≤ horizon, problem.overflow? config.semantics limits step = none)
    (hencodes : problem.Encodes config.semantics horizon) :
    ∃ plan least, Found answer plan least := by
  obtain ⟨witness, -, -, hachieves⟩ := id hreaches
  obtain ⟨final, hfinal, hearlier, hends⟩ :=
    h.stops (goalPossiblyReachable_of_achievesGoal hachieves)
  have hbefore : final ≤ horizon := by
    by_contra hlater
    exact (hearlier horizon (Nat.lt_of_not_le hlater)).2 hreaches
  rcases hends with hends | ⟨-, hfails, -⟩
  · cases hends with
    | overflow hoverflow => exact absurd ((hfits final hbefore).symm.trans hoverflow) (by simp)
    | found _ _ _ _ => exact ⟨_, _, _, rfl⟩
    | exhausted _ hnone hlast =>
        have heq : final = horizon := Nat.le_antisymm hbefore (hlast ▸ hle)
        exact absurd hreaches (heq ▸ hnone)
  · exact absurd (hencodes.of_le hbefore) hfails

theorem Problem.Answers.exists_found_iff (h : problem.Answers config limits answer)
    (hunhindered : Unhindered answer) :
    (∃ plan horizon, Found answer plan horizon) ↔ problem.goalPossiblyReachable = true := by
  obtain ⟨run, rfl, hsteps⟩ := hunhindered
  constructor
  · rintro ⟨plan, horizon, hfound⟩
    obtain ⟨-, -, hachieves, -⟩ := h.of_found hfound
    exact goalPossiblyReachable_of_achievesGoal hachieves
  · intro hpossible
    obtain ⟨final, -, -, hends | ⟨-, -, error, herror⟩⟩ := h.stops hpossible
    · cases hends with
      | found _ _ _ _ => exact ⟨_, _, _, rfl⟩
      | exhausted _ _ _ => exact absurd rfl (hsteps _)
    · cases herror

end Answers

/-- Whatever can be solved with single actions can be solved at the same horizon with parallel
steps, and whatever can be solved with parallel steps can be solved with as many single actions.
So the planner finds a plan with the one semantics if it does with the other; its parallel horizon
is at most the sequential one, which is at most the number of actions of the parallel plan. -/
theorem step_semantics_agree (problem : Problem) :
    (∀ horizon, problem.Encodes .parallel horizon →
      problem.SatisfiableAt .sequential horizon → problem.SatisfiableAt .parallel horizon) ∧
    (∀ (horizon : Nat) (clauses : List Clause) (encoder : Encoder problem .parallel)
        (goal : List Int) (model : Model) (plan : Plan),
      encodeThrough problem .parallel horizon = .ok (clauses, encoder) →
      encoder.goalLiterals horizon = .ok goal → model.SatisfiesAll clauses →
      (∀ lit ∈ goal, model.satisfies lit = true) →
      decode encoder.index .parallel model horizon = .ok plan →
      ∀ later, plan.actionCount ≤ later → problem.Encodes .sequential later →
        problem.SatisfiableAt .sequential later) ∧
    ∀ (sequential parallel : PlannerConfig) (limits limits' : SolverLimits)
        (answer answer' : Except PlanError PlanRun),
      sequential.semantics = .sequential → parallel.semantics = .parallel →
      problem.Answers sequential limits answer → problem.Answers parallel limits' answer' →
      (∀ plan horizon plan' horizon', Found answer plan horizon → Found answer' plan' horizon' →
        horizon' ≤ horizon ∧ horizon ≤ plan'.actionCount) ∧
      (∀ plan horizon, Found answer plan horizon → horizon ≤ parallel.maxSteps →
        (∀ step ≤ horizon, problem.overflow? .parallel limits' step = none) →
        problem.Encodes .parallel horizon → ∃ plan' horizon', Found answer' plan' horizon') ∧
      (∀ plan' horizon', Found answer' plan' horizon' → plan'.actionCount ≤ sequential.maxSteps →
        (∀ step ≤ plan'.actionCount, problem.overflow? .sequential limits step = none) →
        problem.Encodes .sequential plan'.actionCount → ∃ plan horizon, Found answer plan horizon) ∧
      (Unhindered answer → Unhindered answer' →
        ((∃ plan horizon, Found answer plan horizon) ↔
          ∃ plan' horizon', Found answer' plan' horizon')) := by
  refine ⟨?_, ?_, ?_⟩
  · intro horizon hencodes hsatisfiable
    obtain ⟨clauses, encoder, goal, truth, hencode, -⟩ := id hsatisfiable
    rw [satisfiableAt_iff_reaches ⟨clauses, encoder, hencode⟩] at hsatisfiable
    exact (satisfiableAt_iff_reaches hencodes).mpr hsatisfiable.parallel
  · intro horizon clauses encoder goal model plan hencode hgoal hsatisfied hgoalHolds hdecode later
      hle hencodes
    have hmodels : Valuation.Models model.value? (clauses.map Clause.literals) goal := by
      refine ⟨satisfies_map_literals_iff.mpr (Model.satisfiesAll_iff.mp hsatisfied), ?_⟩
      intro lit hlit
      exact Valuation.satisfies_singleton_iff.mpr (Model.satisfies_iff.mp (hgoalHolds lit hlit))
    -- Only the variables that were handed out say what the clauses ask for.
    let truth : Nat → Bool := fun var => (model.value? var).getD false
    have hknown := Model.trueVars_le (encoder.index.maxVar_modelOf truth)
    obtain ⟨accepted, haccept, -, hsteps, hachieves⟩ := exists_acceptModel_eq_ok hencode hgoal
      (models_modelOf hencode hgoal ⟨fun clause hclause => (hmodels.1 clause hclause).getD,
        fun lit hlit => (hmodels.2 lit hlit).getD⟩) hknown
    have hcount : accepted.actionCount ≤ plan.actionCount := by
      refine actionCount_le_of_decode (fun var hvar => ?_) (decode_of_acceptModel haccept) hdecode
      have hbounds := And.intro (Model.pos_of_mem_trueVars hvar) (hknown var hvar)
      rw [Model.mem_trueVars, VariableIndex.value?_modelOf hbounds, Option.some.injEq] at hvar
      rw [Model.mem_trueVars]
      cases hvalue : model.value? var with
      | none => simp [hvalue] at hvar
      | some value => simpa [truth, hvalue] using hvar
    rw [satisfiableAt_iff_reaches hencodes]
    exact (Plan.reaches_actionCount (fun step hstep => (hsteps step hstep).2) hachieves).mono
      (hcount.trans hle)
  · intro sequential parallel limits limits' answer answer' hsequential hparallel hanswer hanswer'
    refine ⟨?_, ?_, ?_, ?_⟩
    · intro plan horizon plan' horizon' hfound hfound'
      obtain ⟨hplan, hsteps, hachieves, hleast⟩ := hanswer.of_found hfound
      obtain ⟨hplan', hsteps', hachieves', hleast'⟩ := hanswer'.of_found hfound'
      rw [hsequential] at hsteps hleast
      rw [hparallel] at hsteps' hleast'
      have hreaches := Problem.reaches_of_legal hplan hsteps hachieves
      have hreaches' :=
        Plan.reaches_actionCount (fun step hstep => (hsteps' step hstep).2) hachieves'
      constructor
      · exact Nat.le_of_not_lt fun hlt => hleast' horizon hlt hreaches.parallel
      · exact Nat.le_of_not_lt fun hlt => hleast plan'.actionCount hlt hreaches'
    · intro plan horizon hfound hle hfits hencodes
      obtain ⟨hplan, hsteps, hachieves, -⟩ := hanswer.of_found hfound
      rw [hsequential] at hsteps
      have hreaches := (Problem.reaches_of_legal hplan hsteps hachieves).parallel
      rw [← hparallel] at hreaches hfits hencodes
      exact hanswer'.exists_found hreaches hle hfits hencodes
    · intro plan' horizon' hfound' hle hfits hencodes
      obtain ⟨-, hsteps', hachieves', -⟩ := hanswer'.of_found hfound'
      rw [hparallel] at hsteps'
      have hreaches :=
        Plan.reaches_actionCount (fun step hstep => (hsteps' step hstep).2) hachieves'
      rw [← hsequential] at hreaches hfits hencodes
      exact hanswer.exists_found hreaches hle hfits hencodes
    · intro hunhindered hunhindered'
      rw [hanswer.exists_found_iff hunhindered, hanswer'.exists_found_iff hunhindered']

theorem exists_model_lampsPlan :
    ∃ clauses encoder goal model, encodeThrough lamps .parallel 1 = .ok (clauses, encoder) ∧
      encoder.goalLiterals 1 = .ok goal ∧ Model.SatisfiesAll model clauses ∧
      (∀ lit ∈ goal, model.satisfies lit = true) ∧
      decode encoder.index .parallel model 1 = .ok lampsPlan := by
  obtain ⟨clauses, encoder, hencode⟩ : lamps.Encodes .parallel 1 :=
    Problem.encodes_of_room (by decide)
  obtain ⟨vars, hreads⟩ := Encoder.exists_reads hencode
  obtain ⟨goal, hgoal, -⟩ := hreads.encodedTo.exists_goalLiterals
  have htimes : ∀ step ∈ lampsPlan.steps, step.time < 1 :=
    fun step hstep => (legal_lampsPlan step hstep).1
  obtain ⟨model, hmaxVar, hsatisfied, hactions⟩ :=
    hreads.exists_model chronological_lampsPlan htimes simulate_lampsPlan
      fun step hstep => (legal_lampsPlan step hstep).2.allows
  have hdecode : decode encoder.index .parallel model 1 = .ok lampsPlan :=
    hreads.decode_eq hsatisfied (Model.trueVars_le hmaxVar) chronological_lampsPlan legal_lampsPlan
      hactions
  refine ⟨clauses, encoder, goal, model, hencode, hgoal, hsatisfied, fun lit hlit => ?_, hdecode⟩
  have hgoalHolds := (hreads.goal_iff (Model.satisfiesAll_iff.mp hsatisfied)
    chronological_lampsPlan htimes (fun time _ id => (hactions time id).symm) hgoal).mpr rfl
  exact Model.satisfies_iff.mpr (Valuation.satisfies_singleton_iff.mp (hgoalHolds lit hlit))

theorem step_semantics_agree_lamps :
    lamps.SatisfiableAt .sequential 2 ∧ lamps.SatisfiableAt .parallel 2 ∧
    ∃ plan horizon plan' horizon',
      Found (planWith (ReferenceSolver.backend .patient) { timeoutSecs := 0 } lamps
        (.init {})).1 plan horizon ∧
      Found (planWith (ReferenceSolver.backend .patient)
        { timeoutSecs := 0, semantics := .parallel } lamps (.init {})).1 plan' horizon' ∧
      horizon' ≤ horizon ∧ horizon ≤ plan'.actionCount := by
  let sequential : PlannerConfig := { timeoutSecs := 0 }
  let parallel : PlannerConfig := { timeoutSecs := 0, semantics := .parallel }
  have hanswer : ∀ config : PlannerConfig, config.timeoutSecs = 0 → lamps.Answers config {}
      (planWith (ReferenceSolver.backend .patient) config lamps (.init {})).1 := by
    intro config hsecs
    refine ⟨_, _, ReferenceSolver.Books, _, ?_, ReferenceSolver.books_init {}, rfl⟩
    rw [PlannerConfig.timeoutMs?_eq_none hsecs]
    exact ReferenceSolver.keepsBooks_backend .patient
  obtain ⟨hlift, hlinearize, hruns⟩ := step_semantics_agree lamps
  obtain ⟨hbounds, hparallel, -, -⟩ :=
    hruns sequential parallel {} {} _ _ rfl rfl (hanswer sequential rfl) (hanswer parallel rfl)
  obtain ⟨clauses, encoder, goal, model, hencode, hgoal, hsatisfied, hgoalHolds, hdecode⟩ :=
    exists_model_lampsPlan
  have hsatisfiable : lamps.SatisfiableAt .sequential 2 :=
    hlinearize 1 clauses encoder goal model lampsPlan hencode hgoal hsatisfied hgoalHolds hdecode 2
      (by decide) (Problem.encodes_of_room (by decide))
  have hreaches : lamps.Reaches .sequential 2 :=
    (satisfiableAt_iff_reaches (Problem.encodes_of_room (by decide))).mp hsatisfiable
  refine ⟨hsatisfiable, hlift 2 (Problem.encodes_of_room (by decide)) hsatisfiable, ?_⟩
  obtain ⟨plan, horizon, hfound⟩ := (hanswer sequential rfl).exists_found hreaches (by decide)
    (by decide +kernel) (Problem.encodes_of_room (by decide))
  have hle : horizon ≤ 2 := by
    obtain ⟨-, -, -, hleast⟩ := (hanswer sequential rfl).of_found hfound
    exact Nat.le_of_not_lt fun hlt => hleast 2 hlt hreaches
  have hfits : ∀ step ≤ 2, lamps.overflow? .parallel {} step = none := by
    decide +kernel
  obtain ⟨plan', horizon', hfound'⟩ := hparallel plan horizon hfound
    (hle.trans (by decide)) (fun step hstep => hfits step (hstep.trans hle))
    ((Problem.encodes_of_room (by decide)).of_le hle)
  exact ⟨plan, horizon, plan', horizon', hfound, hfound',
    hbounds plan horizon plan' horizon' hfound hfound'⟩

end BoundedPlanning
