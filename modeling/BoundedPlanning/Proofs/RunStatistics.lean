import BoundedPlanning.Planner.Report
import BoundedPlanning.Proofs.ModelVerdict

namespace BoundedPlanning

/-- The entries of the horizons below the given one: one for each, in order, none with a plan. -/
structure Unsolved (horizon : Nat) (stats : List HorizonStats) : Prop where
  horizons_eq : stats.map HorizonStats.horizon = List.range horizon
  unsat : ∀ entry ∈ stats, entry.status = .unsat

theorem Unsolved.length_eq {horizon : Nat} {stats : List HorizonStats}
    (h : Unsolved horizon stats) : stats.length = horizon := by
  rw [← List.length_map HorizonStats.horizon, h.horizons_eq, List.length_range]

/-- The entry records the variables and clauses of the steps up to its horizon. -/
def HorizonStats.Sized (problem : Problem) (semantics : StepSemantics) (entry : HorizonStats) :
    Prop :=
  entry.vars = problem.variablesThrough semantics entry.horizon ∧
    entry.clauses = problem.clausesThrough semantics entry.horizon

section Rounds

variable {σ : Type} {backend : Backend σ} {config : PlannerConfig} {problem : Problem}
  {solver state middle next : σ} {horizon : Nat}
  {encoder submitted : Encoder problem config.semantics} {stats : Array HorizonStats}
  {result : SolveResult} {entry : HorizonStats}

theorem ComesTo.unsolved (h : ComesTo backend config problem solver horizon encoder stats state) :
    Unsolved horizon stats.toList := by
  induction h with
  | start _ => exact ⟨rfl, by simp⟩
  | next _ _ hsolve _ ih =>
      obtain ⟨-, rfl⟩ := exists_of_solveHorizon_ok hsolve
      rw [Array.toList_push]
      refine ⟨?_, ?_⟩
      · rw [List.map_append, ih.horizons_eq, List.range_succ]
        rfl
      · rw [List.forall_mem_append, List.forall_mem_singleton]
        exact ⟨ih.unsat, rfl⟩

section Sizes

variable {intake : σ → Intake} {limits : SolverLimits} {clauses : List Clause}

theorem Backend.FollowsIntake.of_reserve (hbackend : backend.FollowsIntake intake) {maxVar : Nat}
    (h : backend.reserve maxVar solver = (.ok (), next)) :
    intake next = (intake solver).reserve maxVar := by
  have hreceive := hbackend.reserve maxVar solver
  rw [h, Intake.receive] at hreceive
  cases hcheck : (intake solver).checkReserve maxVar with
  | error error =>
      rw [hcheck] at hreceive
      cases hreceive
  | ok _ =>
      rw [hcheck] at hreceive
      exact (Except.ok.inj hreceive).symm

theorem Backend.FollowsIntake.of_addClause (hbackend : backend.FollowsIntake intake)
    {lits : List Int} (h : backend.addClause lits solver = (.ok (), next)) :
    intake next = (intake solver).accept lits := by
  have hreceive := hbackend.addClause lits solver
  rw [h, Intake.receive] at hreceive
  cases hcheck : (intake solver).checkClause lits with
  | error error =>
      rw [hcheck] at hreceive
      cases hreceive
  | ok _ =>
      rw [hcheck] at hreceive
      exact (Except.ok.inj hreceive).symm

theorem Backend.FollowsIntake.of_solve (hbackend : backend.FollowsIntake intake)
    {assumptions : List Int} {timeout : Option Nat} {answer : Except SolverError SolveResult}
    (h : backend.solve assumptions timeout solver = (answer, next)) :
    intake next = intake solver := by
  rw [← hbackend.solve assumptions timeout solver, h]

/-- Clauses that were all taken are counted and remembered by the intake. -/
theorem Backend.FollowsIntake.of_addClauses (hbackend : backend.FollowsIntake intake)
    {delta : List Clause} {accepted : List (List Int)}
    (hremembers : (intake solver).Remembers accepted)
    (h : (delta.forM fun clause => PlannerM.ofSolver (backend.addClause clause.literals)) solver =
      (.ok (), next)) :
    (intake next).limits = (intake solver).limits ∧
      (intake next).reserved = (intake solver).reserved ∧
      (intake next).clauseCount = (intake solver).clauseCount + delta.length ∧
      (intake next).Remembers (accepted ++ delta.map Clause.literals) := by
  induction delta generalizing solver accepted with
  | nil =>
      cases h
      exact ⟨rfl, rfl, rfl, by simpa using hremembers⟩
  | cons clause rest ih =>
      rw [List.forM] at h
      obtain ⟨⟨⟩, middle, hfirst, hrest⟩ := exists_of_exceptT_bind_ok h
      have hmiddle := hbackend.of_addClause (PlannerM.of_ofSolver_ok hfirst)
      have haccepted : (intake middle).Remembers (accepted ++ [clause.literals]) := by
        rw [hmiddle]
        exact hremembers.accept
      obtain ⟨hlimits, hreserved, hcount, hnext⟩ := ih haccepted hrest
      rw [hmiddle] at hlimits hreserved hcount
      refine ⟨by simpa using hlimits, by simpa using hreserved, ?_, by simpa using hnext⟩
      rw [hcount, Intake.clauseCount_accept, List.length_cons]
      omega

/-- When a step was submitted, the intake has accepted it. -/
theorem Ready.submitted_of_submitStep (hbackend : backend.FollowsIntake intake)
    (h : Ready limits horizon encoder clauses (intake state))
    (hsubmit : submitStep backend encoder horizon state = (.ok submitted, middle)) :
    ∃ delta, Submitted limits horizon submitted (clauses ++ delta) (intake middle) := by
  obtain ⟨-, delta, announced, hencode, hreserve, hadd⟩ := exists_of_submitStep_ok hsubmit
  have hannounced := hbackend.of_reserve hreserve
  have hremembers : (intake announced).Remembers (clauses.map Clause.literals) := by
    rw [hannounced]
    exact h.remembers
  obtain ⟨hlimits, hreserved, hcount, hmiddle⟩ := hbackend.of_addClauses hremembers hadd
  rw [hannounced] at hlimits hreserved hcount
  have hthrough := h.encodeStep_eq_ok_iff.mp hencode
  obtain ⟨vars, hreads⟩ := Encoder.exists_reads hthrough
  refine ⟨delta, hthrough, hlimits.trans h.limits_eq, ?_, ?_, ?_⟩
  · have hsize := hreads.encodedTo.size_eq
    have := h.reserved_le
    have := h.vars_eq
    rw [hreserved, Intake.reserve]
    exact Nat.max_eq_right (by omega)
  · rw [hcount, Intake.reserve, h.clauseCount_eq, List.length_append]
  · rw [List.map_append]
    exact hmiddle

theorem Submitted.sized (hbackend : backend.FollowsIntake intake)
    (h : Submitted limits horizon submitted clauses (intake middle)) (status : HorizonStatus) :
    HorizonStats.Sized problem config.semantics
      ⟨horizon, backend.numVars middle, backend.numClauses middle, status⟩ := by
  constructor
  · exact (hbackend.numVars_eq middle).trans h.reserved_eq_variablesThrough
  · exact (hbackend.numClauses_eq middle).trans h.clauseCount_eq_clausesThrough

theorem ComesTo.sized (hbackend : backend.FollowsIntake intake)
    (hempty : intake solver = .init limits)
    (h : ComesTo backend config problem solver horizon encoder stats state) :
    (∃ clauses, Ready limits horizon encoder clauses (intake state)) ∧
      ∀ entry ∈ stats, entry.Sized problem config.semantics := by
  induction h with
  | start _ =>
      rw [hempty]
      exact ⟨⟨[], ready_init⟩, by simp⟩
  | next _ hsubmit hsolve _ ih =>
      obtain ⟨⟨clauses, hready⟩, hsized⟩ := ih
      obtain ⟨delta, hsubmitted⟩ := hready.submitted_of_submitStep hbackend hsubmit
      obtain ⟨⟨goal, hcall⟩, rfl⟩ := exists_of_solveHorizon_ok hsolve
      refine ⟨⟨clauses ++ delta, ?_⟩, ?_⟩
      · rw [hbackend.of_solve hcall]
        exact hsubmitted.ready
      · intro entry hentry
        rcases Array.mem_push.mp hentry with hentry | rfl
        · exact hsized entry hentry
        · exact hsubmitted.sized hbackend _

end Sizes

end Rounds

def PlanOutcome.Ends (maxSteps : Nat) (outcome : PlanOutcome) (stats : List HorizonStats) : Prop :=
  match outcome with
  | .found _ horizon =>
    stats.length = horizon + 1 ∧ stats.getLast?.map HorizonStats.status = some .sat
  | .timedOut horizon =>
    stats.length = horizon + 1 ∧ stats.getLast?.map HorizonStats.status = some .timedOut
  | .resourceExhausted last =>
    last = maxSteps ∧ stats.length = maxSteps + 1 ∧ ∀ entry ∈ stats, entry.status = .unsat
  | .unreachable => stats = []

section Naming

variable {problem : Problem}

/-- The step has the names of all actions, in the same order. -/
structure PlanStep.NamedAs (problem : Problem) (step : PlanStep) (named : ReportStep) : Prop where
  time_eq : named.time = step.time
  actions : List.Forall₂ (fun id name => (problem.action? id).map Action.name = some name)
    step.actions named.actions

theorem forall₂_filterMap {α β : Type} {f : α → Option β} {items : List α}
    (h : ∀ item ∈ items, (f item).isSome = true) :
    List.Forall₂ (fun item result => f item = some result) items (items.filterMap f) := by
  induction items with
  | nil => exact .nil
  | cons item rest ih =>
      rw [List.forall_mem_cons] at h
      obtain ⟨result, hresult⟩ := Option.isSome_iff_exists.mp h.1
      rw [List.filterMap_cons_some hresult]
      exact .cons hresult (ih h.2)

theorem PlanStep.namedAs {step : PlanStep} (h : ∀ id ∈ step.actions, id < problem.actionCount) :
    step.NamedAs problem (step.named problem) where
  time_eq := rfl
  actions := by
    refine forall₂_filterMap fun id hid => ?_
    rw [Option.isSome_map, Problem.action?, List.getElem?_eq_getElem (h id hid)]
    rfl

end Naming

section Runs

variable {σ : Type} {backend : Backend σ} {config : PlannerConfig} {problem : Problem}
  {solver next : σ} {run : PlanRun}

theorem stats_of_planWith (h : planWith backend config problem solver = (.ok run, next)) :
    run.stats.map HorizonStats.horizon = List.range run.stats.length ∧
      (∀ entry ∈ run.stats.dropLast, entry.status = .unsat) ∧
      run.outcome.Ends config.maxSteps run.stats := by
  cases hpossible : problem.goalPossiblyReachable with
  | false =>
      rw [planWith_eq_unreachable hpossible] at h
      cases h
      exact ⟨rfl, by simp, rfl⟩
  | true =>
  obtain ⟨horizon, encoder, stats, state, submitted, middle, result, entry, hcomes, -, hsolve,
    hstats, hcases⟩ := exists_ending hpossible h
  have hunsolved := hcomes.unsolved
  obtain ⟨-, hentry⟩ := exists_of_solveHorizon_ok hsolve
  have hlength : run.stats.length = horizon + 1 := by
    rw [hstats, List.length_append, hunsolved.length_eq, List.length_singleton]
  have hlast : run.stats.getLast?.map HorizonStats.status = some result.status := by
    rw [hstats, List.getLast?_concat, hentry]
    rfl
  refine ⟨?_, ?_, ?_⟩
  · rw [hlength, hstats, List.map_append, hunsolved.horizons_eq, List.range_succ, hentry]
    rfl
  · rw [hstats, List.dropLast_concat]
    exact hunsolved.unsat
  · obtain ⟨model, plan, rfl, -, houtcome⟩ | ⟨rfl, houtcome⟩ | ⟨rfl, houtcome, hmax⟩ := hcases
    all_goals rw [houtcome]
    · exact ⟨hlength, hlast⟩
    · exact ⟨hlength, hlast⟩
    · have heq : horizon = config.maxSteps :=
        Nat.le_antisymm hcomes.le_maxSteps (Nat.le_of_not_lt hmax)
      refine ⟨rfl, heq ▸ hlength, ?_⟩
      rw [hstats, List.forall_mem_append, List.forall_mem_singleton, hentry]
      exact ⟨hunsolved.unsat, rfl⟩

theorem sized_of_planWith {intake : σ → Intake} {limits : SolverLimits}
    (hbackend : backend.FollowsIntake intake) (hempty : intake solver = .init limits)
    (h : planWith backend config problem solver = (.ok run, next)) :
    ∀ entry ∈ run.stats, entry.Sized problem config.semantics := by
  cases hpossible : problem.goalPossiblyReachable with
  | false =>
      rw [planWith_eq_unreachable hpossible] at h
      cases h
      simp
  | true =>
  obtain ⟨horizon, encoder, stats, state, submitted, middle, result, entry, hcomes, hsubmit, hsolve,
    hstats, -⟩ := exists_ending hpossible h
  obtain ⟨⟨clauses, hready⟩, hsized⟩ := hcomes.sized hbackend hempty
  obtain ⟨delta, hsubmitted⟩ := hready.submitted_of_submitStep hbackend hsubmit
  obtain ⟨-, rfl⟩ := exists_of_solveHorizon_ok hsolve
  rw [hstats, List.forall_mem_append, List.forall_mem_singleton]
  exact ⟨by simpa using hsized, hsubmitted.sized hbackend _⟩

/-- The actions of a plan that the planner returns are known, and the plan achieves the goal. -/
theorem plan_of_planWith {plan : Plan} {horizon : Nat}
    (h : planWith backend config problem solver = (.ok run, next))
    (hfound : run.outcome = .found plan horizon) :
    (∀ step ∈ plan.steps, ∀ id ∈ step.actions, id < problem.actionCount) ∧
      plan.achievesGoal problem = true := by
  obtain ⟨outcome, entries⟩ := run
  obtain rfl : outcome = .found plan horizon := hfound
  obtain ⟨encoder, hencoded, hplan, hachieves⟩ := exists_readFrom_of_found h
  exact ⟨fun step hstep id hid => hplan.lt_actionCount hencoded hstep hid, hachieves⟩

/-- The report says what the run says: it has a horizon, a plan and a validation exactly if a plan
was found, and then the steps of the plan with the names of all their actions. -/
structure PlanReport.Tells (report : PlanReport) (problem : Problem) (run : PlanRun) : Prop where
  validated_iff : report.validated = true ↔ report.outcome = "found"
  horizon_iff : report.horizon.isSome = true ↔ report.outcome = "found"
  plan_iff : report.plan.isSome = true ↔ report.outcome = "found"
  found : ∀ plan horizon, run.outcome = .found plan horizon →
    report.outcome = "found" ∧ report.horizon = some horizon ∧ report.plan = some plan ∧
      List.Forall₂ (PlanStep.NamedAs problem) plan.steps report.steps
  steps_eq_nil : report.outcome ≠ "found" → report.steps = []

theorem tells_of_planWith (h : planWith backend config problem solver = (.ok run, next))
    (stated : PlannerConfig) (times : RunTimes) :
    (PlanReport.ofRun problem run stated times).Tells problem run := by
  cases houtcome : run.outcome with
  | found plan horizon =>
      obtain ⟨hknown, hachieves⟩ := plan_of_planWith h houtcome
      have hnamed : ∀ step ∈ plan.steps, step.NamedAs problem (step.named problem) :=
        fun step hstep => PlanStep.namedAs (hknown step hstep)
      constructor
      case found => simpa [PlanReport.ofRun, houtcome, PlanOutcome.plan?, PlanOutcome.kind,
        PlanOutcome.horizon?] using hnamed
      all_goals simp [PlanReport.ofRun, houtcome, PlanOutcome.plan?, PlanOutcome.kind,
        PlanOutcome.horizon?, hachieves]
  | _ =>
      constructor
      all_goals simp [PlanReport.ofRun, houtcome, PlanOutcome.plan?, PlanOutcome.kind,
        PlanOutcome.horizon?]

/-- Whatever solver a run was driven by, its entries have the horizons from 0 on in order, only the
last may be other than unsatisfiable, and how it is and how many there are is told by the outcome.
If the solver keeps an intake that was empty at first, each entry has the variables and clauses of
all steps up to its horizon.  The report of the run validates exactly the plans that are found and
names all their actions. -/
theorem run_statistics_consistent
    (hrun : planWith backend config problem solver = (.ok run, next)) :
    run.stats.map HorizonStats.horizon = List.range run.stats.length ∧
    (∀ entry ∈ run.stats.dropLast, entry.status = .unsat) ∧
    run.outcome.Ends config.maxSteps run.stats ∧
    (∀ (intake : σ → Intake) (limits : SolverLimits), backend.FollowsIntake intake →
      intake solver = .init limits → ∀ entry ∈ run.stats,
        entry.vars = problem.factCount + entry.horizon * (problem.actionCount + problem.factCount +
          if config.semantics = .sequential ∧ 2 ≤ problem.actionCount then problem.actionCount - 1
          else 0) ∧
        entry.clauses = problem.factCount +
          entry.horizon * ((Encoder.init problem config.semantics).stepSize 1).clauses) ∧
    ∀ (stated : PlannerConfig) (times : RunTimes),
      (PlanReport.ofRun problem run stated times).Tells problem run := by
  obtain ⟨hhorizons, hunsat, hends⟩ := stats_of_planWith hrun
  refine ⟨hhorizons, hunsat, hends, fun intake limits hbackend hempty entry hentry => ?_,
    tells_of_planWith hrun⟩
  rw [← Problem.auxCount_eq]
  exact sized_of_planWith hbackend hempty hrun entry hentry

theorem exists_planWith_lamps {σ : Type} {backend : Backend σ}
    {books : σ → Intake → List (List Int) → Prop} {solver : σ} (kind : BackendKind)
    (hbackend : backend.KeepsBooks none books) (hbooks : books solver (.init {}) []) :
    ∃ plan entries next,
      planWith backend { timeoutSecs := 0, semantics := .parallel, backend := kind } lamps solver =
        (.ok ⟨.found plan 1, entries⟩, next) := by
  let config : PlannerConfig := { timeoutSecs := 0, semantics := .parallel, backend := kind }
  have hbackend : backend.KeepsBooks config.timeoutMs? books := hbackend
  obtain ⟨answer, next, hplan, -, hends⟩ := exists_planWith_eq hbackend hbooks (by decide) lamps
  have hreaches : lamps.Reaches .parallel 1 :=
    Problem.reaches_of_legal chronological_lampsPlan legal_lampsPlan rfl
  have hleast : ∀ earlier < 1, ¬ lamps.Reaches .parallel earlier := by
    intro earlier hearlier
    rw [Nat.lt_one_iff.mp hearlier, Problem.reaches_zero_iff]
    decide
  have hfits : ∀ step ≤ 1, lamps.overflow? .parallel {} step = none := by
    decide +kernel
  have hpossible : lamps.goalPossiblyReachable = true := by
    decide +kernel
  obtain ⟨plan, entries, hfound, -⟩ :=
    (hends hpossible).eq_found (show 1 ≤ 100 by decide) hreaches hleast hfits
  rw [hfound] at hplan
  exact ⟨plan, entries, next, hplan⟩

theorem run_statistics_consistent_lamps :
    ∃ plan first second next,
      planWith (ReferenceSolver.backend .patient) { timeoutSecs := 0, semantics := .parallel }
        lamps (.init {}) = (.ok ⟨.found plan 1, [first, second]⟩, next) ∧
      first.horizon = 0 ∧ first.status = .unsat ∧ second.horizon = 1 ∧ second.status = .sat ∧
      second.vars = 6 ∧ second.clauses = 10 := by
  obtain ⟨plan, entries, next, hrun⟩ := exists_planWith_lamps .batsat
    (ReferenceSolver.keepsBooks_backend .patient) (ReferenceSolver.books_init {})
  obtain ⟨hhorizons, hunsat, ⟨hlength, hlast⟩, hsized, -⟩ := run_statistics_consistent hrun
  match entries, hlength with
  | [first, second], _ =>
      obtain ⟨hvars, hclauses⟩ := hsized ReferenceSolver.intake {}
        (ReferenceSolver.followsIntake_backend .patient) rfl second (by simp)
      have hsecond : second.horizon = 1 := (List.cons.inj (List.cons.inj hhorizons).2).1
      rw [hsecond] at hvars hclauses
      refine ⟨plan, first, second, next, hrun, (List.cons.inj hhorizons).1, hunsat first (by simp),
        hsecond, Option.some.inj hlast, ?_, ?_⟩
      · rw [hvars]
        decide
      · rw [hclauses]
        decide +kernel

end Runs

end BoundedPlanning
