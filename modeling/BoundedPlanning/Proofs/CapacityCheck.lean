import BoundedPlanning.Proofs.PlannerCorrectness
import BoundedPlanning.Proofs.ScriptedSolver

namespace BoundedPlanning

namespace Intake

variable {intake middle : Intake} {calls : List SolverCall}

/-- The intake after a call that passes its check. -/
def receive (intake : Intake) : SolverCall → Except SolverError Intake
  | .reserve maxVar => (intake.checkReserve maxVar).map fun _ => intake.reserve maxVar
  | .addClause lits => (intake.checkClause lits).map fun _ => intake.accept lits
  | .solve assumptions _ => (intake.checkLiterals assumptions).map fun _ => intake

theorem receive_reserve {maxVar : Nat} (h : intake.checkReserve maxVar = .ok ()) :
    intake.receive (.reserve maxVar) = .ok (intake.reserve maxVar) := by
  rw [receive, h]
  rfl

theorem receive_addClause {lits : List Int} (h : intake.checkClause lits = .ok ()) :
    intake.receive (.addClause lits) = .ok (intake.accept lits) := by
  rw [receive, h]
  rfl

theorem receive_solve {assumptions : List Int} (h : intake.checkLiterals assumptions = .ok ())
    (timeout : Option Nat) : intake.receive (.solve assumptions timeout) = .ok intake := by
  rw [receive, h]
  rfl

/-- The intake after calls that all pass their checks, or the error of the first that does not. -/
def replay (intake : Intake) (calls : List SolverCall) : Except SolverError Intake :=
  calls.foldlM receive intake

theorem replay_concat (h : intake.replay calls = .ok middle) (call : SolverCall) :
    intake.replay (calls ++ [call]) = middle.receive call := by
  rw [replay] at h
  rw [replay, List.foldlM_append, h]
  exact bind_pure (middle.receive call)

end Intake

/-- The solver leaves reservations, clauses, limits and counts to an intake.  It may answer `solve`
as it likes, as long as that does not change the intake. -/
structure Backend.FollowsIntake {σ : Type} (backend : Backend σ) (intake : σ → Intake) : Prop where
  limits_eq : ∀ solver, backend.limits solver = (intake solver).limits
  numVars_eq : ∀ solver, backend.numVars solver = (intake solver).reserved
  numClauses_eq : ∀ solver, backend.numClauses solver = (intake solver).clauseCount
  reserve : ∀ maxVar solver, (intake solver).receive (.reserve maxVar) =
    (backend.reserve maxVar solver).1.map fun _ => intake (backend.reserve maxVar solver).2
  addClause : ∀ lits solver, (intake solver).receive (.addClause lits) =
    (backend.addClause lits solver).1.map fun _ => intake (backend.addClause lits solver).2
  solve : ∀ assumptions timeout solver,
    intake (backend.solve assumptions timeout solver).2 = intake solver

theorem ReferenceSolver.followsIntake_backend (clock : Clock) :
    (backend clock).FollowsIntake ReferenceSolver.intake where
  limits_eq _ := rfl
  numVars_eq _ := rfl
  numClauses_eq _ := rfl
  reserve maxVar solver := by
    simp only [Intake.receive, backend, SolverM.checked]
    cases solver.intake.checkReserve maxVar <;> rfl
  addClause lits solver := by
    simp only [Intake.receive, backend, SolverM.checked]
    cases solver.intake.checkClause lits <;> rfl
  solve assumptions timeout solver := by
    simp only [backend, SolverM.checked]
    cases solver.intake.checkLiterals assumptions <;> rfl

section Logging

variable {σ : Type} {backend : Backend σ} {intake : σ → Intake} {limits : SolverLimits}
  {logged : Scripted σ} {current : Intake} {calls : List SolverCall}

/-- The log has the calls so far, and they all passed the checks of the intake. -/
structure Logged (limits : SolverLimits) (intake : σ → Intake) (logged : Scripted σ)
    (current : Intake) (calls : List SolverCall) : Prop where
  intake_eq : intake logged.solver = current
  script_eq : logged.script = []
  log_eq : logged.log.toList = calls
  replay_eq : (Intake.init limits).replay calls = .ok current

theorem logged_init {solver : σ} (hempty : intake solver = .init limits) :
    Logged limits intake ⟨solver, [], #[]⟩ (.init limits) [] :=
  ⟨hempty, rfl, rfl, rfl⟩

/-- What the intake lets pass, a solver that follows it takes. -/
theorem exists_of_receive {result : Except SolverError Unit} {current after next : Intake}
    {call : SolverCall} (hreceive : current.receive call = .ok after)
    (hfollows : current.receive call = result.map fun _ => next) :
    result = .ok () ∧ next = after := by
  rw [hreceive] at hfollows
  cases result with
  | error error => cases hfollows
  | ok _ => exact ⟨rfl, (Except.ok.inj hfollows).symm⟩

theorem Logged.receive {solver next : σ} {log : Array SolverCall}
    (h : Logged limits intake ⟨solver, [], log⟩ current calls) {call : SolverCall} {after : Intake}
    {result : Except SolverError Unit} (hreceive : current.receive call = .ok after)
    (hfollows : (intake solver).receive call = result.map fun _ => intake next) :
    result = .ok () ∧ Logged limits intake ⟨next, [], log.push call⟩ after (calls ++ [call]) := by
  obtain ⟨rfl, -, rfl, hreplay⟩ := h
  obtain ⟨hresult, hafter⟩ := exists_of_receive hreceive hfollows
  refine ⟨hresult, hafter, rfl, Array.toList_push, ?_⟩
  rw [Intake.replay_concat hreplay, hreceive]

theorem Backend.FollowsIntake.takes (h : backend.FollowsIntake intake) :
    (Scripted.backend backend).Takes (Logged limits intake) where
  limits_eq hlogged := (h.limits_eq _).trans (congrArg Intake.limits hlogged.intake_eq)
  numClauses_eq hlogged :=
    (h.numClauses_eq _).trans (congrArg Intake.clauseCount hlogged.intake_eq)
  reserve := by
    rintro ⟨solver, script, log⟩ current calls hlogged maxVar hcheck
    obtain rfl : script = [] := hlogged.script_eq
    obtain ⟨hresult, hnext⟩ :=
      hlogged.receive (Intake.receive_reserve hcheck) (h.reserve maxVar solver)
    rw [Scripted.reserve_eq, hresult]
    exact ⟨_, rfl, hnext⟩
  addClause := by
    rintro ⟨solver, script, log⟩ current calls hlogged lits hcheck
    obtain rfl : script = [] := hlogged.script_eq
    obtain ⟨hresult, hnext⟩ :=
      hlogged.receive (Intake.receive_addClause hcheck) (h.addClause lits solver)
    rw [Scripted.addClause_eq, hresult]
    exact ⟨_, rfl, hnext⟩

theorem Backend.FollowsIntake.accounts (h : backend.FollowsIntake intake) :
    (Scripted.backend backend).Accounts (Logged limits intake) where
  toTakes := h.takes
  solve := by
    rintro ⟨solver, script, log⟩ current calls hlogged assumptions hcheck timeout
    obtain ⟨rfl, rfl, rfl, hreplay⟩ := hlogged
    refine ⟨h.solve assumptions timeout solver, rfl, Array.toList_push, ?_⟩
    rw [Intake.replay_concat hreplay, Intake.receive_solve hcheck]

end Logging

section Rounds

variable {σ : Type} {backend : Backend σ} {intake : σ → Intake} {limits : SolverLimits}
  {config : PlannerConfig} {problem : Problem} {solver : σ} {state : Scripted σ} {horizon : Nat}
  {encoder : Encoder problem config.semantics} {stats : Array HorizonStats}
  {clauses : List Clause} {current : Intake} {calls : List SolverCall}

/-- A step that fits is submitted, and the solver is called with assumptions that pass the check. -/
theorem Ready.exists_round (hbackend : backend.FollowsIntake intake)
    (hlimits : limits.maxVars ≤ variableRoom) (hlogged : Logged limits intake state current calls)
    (h : Ready limits horizon encoder clauses current)
    (hfits : problem.overflow? config.semantics limits horizon = none) (timeout : Option Nat) :
    ∃ submitted middle delta after goal earlier result next,
      submitStep (Scripted.backend backend) encoder horizon state = (.ok submitted, middle) ∧
      Submitted limits horizon submitted (clauses ++ delta) after ∧
      submitted.goalLiterals horizon = .ok goal ∧
      Logged limits intake middle after earlier ∧
      (Scripted.backend backend).solve goal timeout middle = (result, next) ∧
      backend.solve goal timeout middle.solver = (result, next.solver) ∧
      Logged limits intake next after (earlier ++ [.solve goal timeout]) := by
  obtain ⟨submitted, middle, delta, after, goal, earlier, hsubmit, hstep, hgoal, hmiddle, -,
    hnext⟩ := h.exists_accounted_round hbackend.accounts hlimits hlogged hfits timeout
  obtain ⟨solver, script, log⟩ := middle
  obtain rfl : script = [] := hmiddle.script_eq
  exact ⟨submitted, _, delta, after, goal, earlier, _, _, hsubmit, hstep, hgoal, hmiddle,
    Scripted.solve_eq_of_nil goal timeout, rfl, hnext⟩

theorem ComesTo.exists_ready (hbackend : backend.FollowsIntake intake)
    (hempty : intake solver = .init limits) (hlimits : limits.maxVars ≤ variableRoom)
    (h : ComesTo (Scripted.backend backend) config problem ⟨solver, [], #[]⟩ horizon encoder stats
      state) :
    ∃ clauses current calls, Ready limits horizon encoder clauses current ∧
      Logged limits intake state current calls :=
  h.exists_accounted hbackend.accounts (logged_init hempty) hlimits

inductive RejectsModel : PlanError → Prop
  | unknownVariable (var : Nat) : RejectsModel (.encoding (.unknownVariable var))
  | multipleActions (step : Nat) (actions : List Nat) :
      RejectsModel (.encoding (.multipleActionsPerStep step actions))
  | invalidPlan (cause : SimulationError) : RejectsModel (.invalidPlan cause)
  | goalNotReached (horizon : Nat) : RejectsModel (.goalNotReached horizon)

theorem rejectsModel_of_acceptModel {submitted : Encoder problem config.semantics} {model : Model}
    {error : PlanError} (h : acceptModel submitted model horizon = .error error) :
    RejectsModel error := by
  unfold acceptModel at h
  cases hdecode : decode submitted.index config.semantics model horizon with
  | error cause =>
      rw [hdecode] at h
      cases h
      rcases error_of_decode hdecode with ⟨var, rfl⟩ | ⟨step, actions, rfl⟩
      · exact .unknownVariable var
      · exact .multipleActions step actions
  | ok plan =>
      cases hreached : plan.simulate problem with
      | error cause =>
          simp only [hdecode, hreached, Except.mapError, bind, Except.bind] at h
          cases h
          exact .invalidPlan cause
      | ok reached =>
          simp only [hdecode, hreached, Except.mapError, bind, Except.bind] at h
          split at h
          · cases h
          · cases h
            exact .goalNotReached horizon

inductive Ending (backend : Backend σ) (intake : σ → Intake) (limits : SolverLimits)
    (config : PlannerConfig) (problem : Problem) (solver : σ) :
    Except PlanError PlanRun → Scripted σ → Prop
  | overflow {step : Nat} {encoder : Encoder problem config.semantics}
      {stats : Array HorizonStats} {state : Scripted σ} {error : EncodingError}
      (h : ComesTo (Scripted.backend backend) config problem ⟨solver, [], #[]⟩ step encoder stats
        state)
      (hoverflow : problem.overflow? config.semantics limits step = some error) :
      Ending backend intake limits config problem solver (.error (.encoding error)) state
  | solve {last : Scripted σ} {earlier : List SolverCall} {assumptions : List Int} {before : σ}
      {error : SolverError}
      (hlog : last.log.toList = earlier ++ [.solve assumptions config.timeoutMs?])
      (hreplay : (Intake.init limits).replay earlier = .ok (intake before))
      (hsolve : backend.solve assumptions config.timeoutMs? before = (.error error, last.solver)) :
      Ending backend intake limits config problem solver (.error (.solver error)) last
  | model {last : Scripted σ} {error : PlanError} (hreject : RejectsModel error) :
      Ending backend intake limits config problem solver (.error error) last
  | outcome {last : Scripted σ} {run : PlanRun} :
      Ending backend intake limits config problem solver (.ok run) last

/-- An ending with the log of all calls, each of which passed its check. -/
def EndsLogged (backend : Backend σ) (intake : σ → Intake) (limits : SolverLimits)
    (config : PlannerConfig) (problem : Problem) (solver : σ)
    (outcome : Except PlanError PlanRun × Scripted σ) : Prop :=
  Ending backend intake limits config problem solver outcome.1 outcome.2 ∧
    ∃ current calls, Logged limits intake outcome.2 current calls

theorem endsLogged_afterSolving {submitted : Encoder problem config.semantics}
    {result : SolveResult} {next : Scripted σ} (hnext : Logged limits intake next current calls)
    (hlast : result = .unsat → ¬ horizon < config.maxSteps) :
    EndsLogged backend intake limits config problem solver
      (afterSolving (Scripted.backend backend) config.timeoutMs? config.maxSteps submitted horizon
        stats result next) := by
  cases result with
  | sat model =>
      rw [afterSolving]
      cases haccept : acceptModel submitted model horizon with
      | error error => exact ⟨.model (rejectsModel_of_acceptModel haccept), current, calls, hnext⟩
      | ok plan => exact ⟨.outcome, current, calls, hnext⟩
  | timedOut => exact ⟨.outcome, current, calls, hnext⟩
  | unsat =>
      rw [afterSolving, if_neg (hlast rfl)]
      exact ⟨.outcome, current, calls, hnext⟩

theorem endsLogged_planWith (hbackend : backend.FollowsIntake intake)
    (hempty : intake solver = .init limits) (hlimits : limits.maxVars ≤ variableRoom) :
    EndsLogged backend intake limits config problem solver
      (planWith (Scripted.backend backend) config problem ⟨solver, [], #[]⟩) := by
  cases hpossible : problem.goalPossiblyReachable with
  | false =>
      rw [planWith_eq_unreachable hpossible]
      exact ⟨.outcome, _, _, logged_init hempty⟩
  | true =>
      obtain ⟨horizon, encoder, stats, state, hcomes, hlast⟩ := exists_last_round hpossible
      obtain ⟨clauses, current, calls, hready, hlogged⟩ :=
        hcomes.exists_ready hbackend hempty hlimits
      rw [hcomes.planWith_eq]
      cases hfits : problem.overflow? config.semantics limits horizon with
      | some error =>
          rw [deepen_of_submitStep_error
            (hready.submitStep_of_overflow hbackend.takes hlogged hfits)]
          exact ⟨.overflow hcomes hfits, current, calls, hlogged⟩
      | none =>
          obtain ⟨submitted, middle, delta, after, goal, earlier, result, next, hsubmit, -, hgoal,
            hmiddle, hcall, hplain, hnext⟩ :=
            hready.exists_round hbackend hlimits hlogged hfits config.timeoutMs?
          cases result with
          | error error =>
              rw [deepen_of_solveHorizon_error hsubmit (solveHorizon_of_error hgoal hcall)]
              have hreplay : (Intake.init limits).replay earlier = .ok (intake middle.solver) := by
                rw [hmiddle.replay_eq, hmiddle.intake_eq]
              exact ⟨.solve hnext.log_eq hreplay hplain, after, _, hnext⟩
          | ok answer =>
              have hsolve := solveHorizon_of_ok hgoal hcall
              rw [deepen_of_solveHorizon_ok hsubmit hsolve]
              refine endsLogged_afterSolving hnext ?_
              rintro rfl hlt
              exact hlast ⟨submitted, middle, _, next, hsubmit, hsolve, hlt⟩

/-- Whatever `solve` answers, every call of the planner passes the checks of the intake.  The solver
fails in calls of `solve` only, and encoding fails only when a step exceeds a cap or the solver's
model is of no use.  A step to which the run comes is given up before the first call exactly when
the variables, or else the clauses, of all steps through it exceed their cap. -/
theorem capacity_check_exact (hbackend : backend.FollowsIntake intake)
    (hempty : intake solver = .init limits) (hlimits : limits.maxVars ≤ variableRoom)
    (config : PlannerConfig) (problem : Problem) :
    ∃ answer last,
      planWith (Scripted.backend backend) config problem ⟨solver, [], #[]⟩ = (answer, last) ∧
      planWith backend config problem solver = (answer, last.solver) ∧
      (Intake.init limits).replay last.log.toList = .ok (intake last.solver) ∧
      (∀ error, answer = .error (.solver error) → ∃ earlier assumptions before,
        last.log.toList = earlier ++ [.solve assumptions config.timeoutMs?] ∧
        (Intake.init limits).replay earlier = .ok (intake before) ∧
        backend.solve assumptions config.timeoutMs? before = (.error error, last.solver)) ∧
      (∀ error, answer = .error (.encoding error) →
        (∃ step, problem.overflow? config.semantics limits step = some error) ∨
        (∃ var, error = .unknownVariable var) ∨
        ∃ step actions, error = .multipleActionsPerStep step actions) ∧
      (∀ step encoder stats state,
        ComesTo (Scripted.backend backend) config problem ⟨solver, [], #[]⟩ step encoder stats
          state →
        (∀ error, problem.overflow? config.semantics limits step = some error →
          answer = .error (.encoding error) ∧ last = state) ∧
        (problem.overflow? config.semantics limits step = none → ∃ submitted middle,
          submitStep (Scripted.backend backend) encoder step state = (.ok submitted, middle) ∧
          (intake middle.solver).reserved = problem.variablesThrough config.semantics step ∧
          (intake middle.solver).clauseCount = problem.clausesThrough config.semantics step)) ∧
      (∀ step resource required limit,
        answer = .error (.encoding (.encodingOverflow step resource required limit)) →
          problem.overflow? config.semantics limits step =
            some (.encodingOverflow step resource required limit) ∧
          ∃ encoder stats, ComesTo (Scripted.backend backend) config problem ⟨solver, [], #[]⟩ step
            encoder stats last) ∧
      (∀ step, problem.variablesThrough config.semantics step ≤ variableRoom →
        problem.Encodes config.semantics step) ∧
      ∀ step clauses encoder,
        encodeThrough problem config.semantics step = .ok (clauses, encoder) →
          encoder.index.size = problem.variablesThrough config.semantics step ∧
          clauses.length = problem.clausesThrough config.semantics step := by
  have hends : EndsLogged backend intake limits config problem solver
      (planWith (Scripted.backend backend) config problem ⟨solver, [], #[]⟩) :=
    endsLogged_planWith hbackend hempty hlimits
  have hmirror : Scripted.Mirrors (planWith (Scripted.backend backend) config problem)
      (planWith backend config problem) := Scripted.mirrors_planWith config problem
  obtain ⟨log, hmirror⟩ := hmirror solver #[]
  cases hrun : planWith (Scripted.backend backend) config problem ⟨solver, [], #[]⟩ with
  | mk answer last =>
  rw [hrun] at hends hmirror
  obtain ⟨hending, current, calls, hlogged⟩ := hends
  obtain ⟨hanswer, hlast⟩ := Prod.mk.inj hmirror
  refine ⟨answer, last, rfl, ?_, ?_, ?_, ?_, ?_, ?_, ?_, ?_⟩
  · rw [hanswer, hlast]
    rfl
  · rw [hlogged.log_eq, hlogged.replay_eq, hlogged.intake_eq]
  · rintro error rfl
    cases hending with
    | solve hlog hreplay hsolve => exact ⟨_, _, _, hlog, hreplay, hsolve⟩
    | model hreject => cases hreject
  · rintro error rfl
    cases hending with
    | overflow _ hoverflow => exact Or.inl ⟨_, hoverflow⟩
    | model hreject =>
        cases hreject with
        | unknownVariable var => exact Or.inr (Or.inl ⟨var, rfl⟩)
        | multipleActions step actions => exact Or.inr (Or.inr ⟨step, actions, rfl⟩)
  · intro step encoder stats state hcomes
    obtain ⟨clauses, before, earlier, hready, hbefore⟩ :=
      hcomes.exists_ready hbackend hempty hlimits
    constructor
    · intro error hoverflow
      rw [hcomes.planWith_eq, deepen_of_submitStep_error
        (hready.submitStep_of_overflow hbackend.takes hbefore hoverflow)] at hrun
      cases hrun
      exact ⟨rfl, rfl⟩
    · intro hfits
      obtain ⟨submitted, middle, delta, after, goal, calls, result, next, hsubmit, hstep, -,
        hmiddle, -⟩ := hready.exists_round hbackend hlimits hbefore hfits config.timeoutMs?
      refine ⟨submitted, middle, hsubmit, ?_, ?_⟩
      · rw [hmiddle.intake_eq, hstep.reserved_eq_variablesThrough]
      · rw [hmiddle.intake_eq, hstep.clauseCount_eq_clausesThrough]
  · rintro step resource required limit rfl
    cases hending with
    | overflow hcomes hoverflow =>
        obtain rfl := Problem.step_of_overflow? hoverflow
        exact ⟨hoverflow, _, _, hcomes⟩
    | model hreject => cases hreject
  · intro step
    exact Problem.encodes_of_room
  · intro step clauses encoder hencode
    obtain ⟨vars, hreads⟩ := Encoder.exists_reads hencode
    exact ⟨hreads.encodedTo.size_eq, Encoder.length_of_encodeThrough hencode⟩

theorem capacity_check_exact_lamps :
    ∃ last encoder stats,
      planWith (ReferenceSolver.backend .patient) { timeoutSecs := 0, semantics := .parallel } lamps
        (.init { maxVars := 5 }) =
        (.error (.encoding (.encodingOverflow 1 .variables 6 5)), last.solver) ∧
      ComesTo (Scripted.backend (ReferenceSolver.backend .patient))
        { timeoutSecs := 0, semantics := .parallel } lamps ⟨.init { maxVars := 5 }, [], #[]⟩ 1 encoder
        stats last ∧
      (Intake.init { maxVars := 5 }).replay last.log.toList = .ok last.solver.intake := by
  let config : PlannerConfig := { timeoutSecs := 0, semantics := .parallel }
  let limits : SolverLimits := { maxVars := 5 }
  have hbackend : (ReferenceSolver.backend .patient).KeepsBooks config.timeoutMs?
      ReferenceSolver.Books := ReferenceSolver.keepsBooks_backend .patient
  obtain ⟨answer, last, -, hplain, hreplay, -, -, -, hoverflow, -, -⟩ :=
    capacity_check_exact (ReferenceSolver.followsIntake_backend .patient)
      (show (ReferenceSolver.init limits).intake = .init limits from rfl) (by decide) config lamps
  obtain ⟨same, next, hrun, -, hends⟩ :=
    exists_planWith_eq hbackend (ReferenceSolver.books_init limits) (by decide) lamps
  have hpossible : lamps.goalPossiblyReachable = true := by
    decide +kernel
  have hleast : ∀ earlier < 1, ¬ lamps.Reaches .parallel earlier := by
    intro earlier hearlier
    rw [Nat.lt_one_iff.mp hearlier, Problem.reaches_zero_iff]
    decide
  have hzero : lamps.overflow? .parallel limits 0 = none := by
    decide +kernel
  have hone : lamps.overflow? .parallel limits 1 =
      some (.encodingOverflow 1 .variables 6 5) := by
    decide +kernel
  obtain ⟨first, hfirst, error, -, herror, hanswer⟩ :=
    (hends hpossible).eq_overflow (by decide) hleast (by rw [hone]; simp)
  have heq : first = 1 := by
    refine Nat.le_antisymm hfirst (Nat.pos_of_ne_zero ?_)
    rintro rfl
    rw [hzero] at herror
    cases herror
  subst heq
  rw [hone] at herror
  cases herror
  rw [hanswer, hplain] at hrun
  cases hrun
  obtain ⟨-, encoder, stats, hcomes⟩ := hoverflow 1 .variables 6 5 rfl
  exact ⟨last, encoder, stats, hplain, hcomes, hreplay⟩

end Rounds

end BoundedPlanning
