import BoundedPlanning.Proofs.CapacityCheck
import BoundedPlanning.Proofs.GatheredStats
import BoundedPlanning.Proofs.RunEncoders

/-!
Raising the bounds.  Neither the last horizon nor the caps have a part in what is encoded, asked and
answered; they only say where a run stops.  So a run with higher bounds does what the one with lower
bounds does, as far as that one goes.
-/

namespace BoundedPlanning

theorem checkCapacity_mono {limits more : SolverLimits} {vars clauses : Nat} {size : StepSize}
    {step : Nat} (hvars : limits.maxVars ≤ more.maxVars)
    (hclauses : limits.maxClauses ≤ more.maxClauses)
    (h : checkCapacity limits vars clauses size step = .ok ()) :
    checkCapacity more vars clauses size step = .ok () := by
  unfold checkCapacity at h ⊢
  split at h
  · cases h
  · split at h
    · cases h
    · rw [if_neg (by omega), if_neg (by omega)]

/-- The higher of two related solvers takes what the lower one takes, and answers alike. -/
structure Backend.Raises {σ : Type} (backend : Backend σ) (raised : σ → σ → Prop) : Prop where
  maxVars_le : ∀ {low high}, raised low high →
    (backend.limits low).maxVars ≤ (backend.limits high).maxVars
  maxClauses_le : ∀ {low high}, raised low high →
    (backend.limits low).maxClauses ≤ (backend.limits high).maxClauses
  numVars_eq : ∀ {low high}, raised low high → backend.numVars high = backend.numVars low
  numClauses_eq : ∀ {low high}, raised low high → backend.numClauses high = backend.numClauses low
  reserve : ∀ {low high next}, raised low high → ∀ maxVar,
    backend.reserve maxVar low = (.ok (), next) →
      ∃ after, backend.reserve maxVar high = (.ok (), after) ∧ raised next after
  addClause : ∀ {low high next}, raised low high → ∀ lits,
    backend.addClause lits low = (.ok (), next) →
      ∃ after, backend.addClause lits high = (.ok (), after) ∧ raised next after
  solve : ∀ {low high result next}, raised low high → ∀ assumptions timeout,
    backend.solve assumptions timeout low = (result, next) →
      ∃ after, backend.solve assumptions timeout high = (result, after) ∧ raised next after

namespace Backend.Raises

variable {σ : Type} {backend : Backend σ} {raised : σ → σ → Prop} (h : backend.Raises raised)
  {low high next : σ}
include h

theorem addClauses (hraised : raised low high) {clauses : List Clause}
    (hlow : (clauses.forM fun clause => PlannerM.ofSolver (backend.addClause clause.literals)) low =
      (.ok (), next)) :
    ∃ after,
      (clauses.forM fun clause => PlannerM.ofSolver (backend.addClause clause.literals)) high =
        (.ok (), after) ∧ raised next after := by
  induction clauses generalizing low high with
  | nil =>
      cases hlow
      exact ⟨high, rfl, hraised⟩
  | cons clause rest ih =>
      obtain ⟨_, middle, hfirst, hrest⟩ := exists_of_exceptT_bind_ok hlow
      obtain ⟨afterFirst, hhigh, hmiddle⟩ :=
        h.addClause hraised clause.literals (PlannerM.of_ofSolver_ok hfirst)
      obtain ⟨after, hafter, hnext⟩ := ih hmiddle hrest
      refine ⟨after, ?_, hnext⟩
      rw [List.forM, exceptT_bind_of_ok (PlannerM.ofSolver_of_ok hhigh)]
      exact hafter

variable {problem : Problem} {semantics : StepSemantics}
  {encoder submitted : Encoder problem semantics}

theorem submitStep (hraised : raised low high) {step : Nat}
    (hlow : submitStep backend encoder step low = (.ok submitted, next)) :
    ∃ after, BoundedPlanning.submitStep backend encoder step high = (.ok submitted, after) ∧
      raised next after := by
  obtain ⟨hcapacity, delta, middle, hencode, hreserve, hadd⟩ := exists_of_submitStep_ok hlow
  have hhigh : checkCapacity (backend.limits high) encoder.index.size (backend.numClauses high)
      (encoder.stepSize step) step = .ok () := by
    rw [h.numClauses_eq hraised]
    exact checkCapacity_mono (h.maxVars_le hraised) (h.maxClauses_le hraised) hcapacity
  obtain ⟨reserved, hreserved, hmiddle⟩ := h.reserve hraised _ hreserve
  obtain ⟨after, hafter, hnext⟩ := h.addClauses hmiddle hadd
  refine ⟨after, ?_, hnext⟩
  rw [submitStep_of_encodeStep_ok hhigh hencode,
    exceptT_bind_of_ok (PlannerM.ofSolver_of_ok hreserved), exceptT_bind_of_ok hafter]
  rfl

theorem solveHorizon (hraised : raised low high) {timeout : Option Nat} {horizon : Nat}
    {answer : Except PlanError (SolveResult × HorizonStats)}
    (hlow : solveHorizon backend timeout encoder horizon low = (answer, next)) :
    ∃ after, BoundedPlanning.solveHorizon backend timeout encoder horizon high = (answer, after) ∧
      raised next after := by
  cases hgoal : encoder.goalLiterals horizon with
  | error error =>
      rw [solveHorizon_of_goalLiterals_error hgoal] at hlow
      cases hlow
      exact ⟨high, solveHorizon_of_goalLiterals_error hgoal, hraised⟩
  | ok goal =>
      cases hsolve : backend.solve goal timeout low with
      | mk result middle =>
      obtain ⟨after, hafter, hmiddle⟩ := h.solve hraised goal timeout hsolve
      cases result with
      | error error =>
          rw [solveHorizon_of_error hgoal hsolve] at hlow
          cases hlow
          exact ⟨after, solveHorizon_of_error hgoal hafter, hmiddle⟩
      | ok result =>
          rw [solveHorizon_of_ok hgoal hsolve] at hlow
          cases hlow
          refine ⟨after, ?_, hmiddle⟩
          rw [solveHorizon_of_ok hgoal hafter, h.numVars_eq hraised, h.numClauses_eq hraised]

end Backend.Raises

abbrev PlannerConfig.withBounds (config : PlannerConfig) (maxSteps : Nat) (limits : SolverLimits) :
    PlannerConfig :=
  { config with maxSteps := maxSteps, limits := limits }

theorem ComesTo.raise {σ : Type} {backend : Backend σ} {raised : σ → σ → Prop}
    (hraises : backend.Raises raised) {config : PlannerConfig} {problem : Problem}
    {low high state : σ} (hraised : raised low high) {maxSteps : Nat} {limits : SolverLimits}
    (hsteps : config.maxSteps ≤ maxSteps) {horizon : Nat}
    {encoder : Encoder problem config.semantics} {stats : Array HorizonStats}
    (h : ComesTo backend config problem low horizon encoder stats state) :
    ∃ after, ComesTo backend (config.withBounds maxSteps limits) problem high horizon encoder stats
      after ∧ raised state after := by
  induction h with
  | start hpossible => exact ⟨high, .start hpossible, hraised⟩
  | next _ hsubmit hsolve hlt ih =>
      obtain ⟨before, hcomes, hbefore⟩ := ih
      obtain ⟨middle, hhighSubmit, hmiddle⟩ := hraises.submitStep hbefore hsubmit
      obtain ⟨after, hhighSolve, hafter⟩ := hraises.solveHorizon hmiddle hsolve
      exact ⟨after, hcomes.next hhighSubmit hhighSolve (hlt.trans_le hsteps), hafter⟩

/-- Scripted solvers in front of related solvers, with the same answers left and the same log. -/
inductive Scripted.Raised {σ : Type} (raised : σ → σ → Prop) : Scripted σ → Scripted σ → Prop
  | mk {low high : σ} (h : raised low high) (script : List ScriptedAnswer)
      (log : Array SolverCall) : Raised raised ⟨low, script, log⟩ ⟨high, script, log⟩

theorem Scripted.raises_backend {σ : Type} {behind : Backend σ} {raised : σ → σ → Prop}
    (h : behind.Raises raised) : (backend behind).Raises (Scripted.Raised raised) where
  maxVars_le := fun ⟨hraised, _, _⟩ => h.maxVars_le hraised
  maxClauses_le := fun ⟨hraised, _, _⟩ => h.maxClauses_le hraised
  numVars_eq := fun ⟨hraised, _, _⟩ => h.numVars_eq hraised
  numClauses_eq := fun ⟨hraised, _, _⟩ => h.numClauses_eq hraised
  reserve := by
    rintro _ _ next ⟨hraised, script, log⟩ maxVar hlow
    rw [reserve_eq] at hlow
    obtain ⟨hresult, rfl⟩ := Prod.mk.inj hlow
    obtain ⟨after, hafter, hnext⟩ := h.reserve hraised maxVar (Prod.ext hresult rfl)
    exact ⟨_, by rw [reserve_eq, hafter], .mk hnext script _⟩
  addClause := by
    rintro _ _ next ⟨hraised, script, log⟩ lits hlow
    rw [addClause_eq] at hlow
    obtain ⟨hresult, rfl⟩ := Prod.mk.inj hlow
    obtain ⟨after, hafter, hnext⟩ := h.addClause hraised lits (Prod.ext hresult rfl)
    exact ⟨_, by rw [addClause_eq, hafter], .mk hnext script _⟩
  solve := by
    rintro _ _ result next ⟨hraised, script, log⟩ assumptions timeout hlow
    obtain ⟨after, hafter, hnext⟩ := h.solve hraised assumptions timeout rfl
    cases script with
    | nil =>
        rw [solve_eq_of_nil] at hlow
        cases hlow
        exact ⟨_, by rw [solve_eq_of_nil, hafter], .mk hnext [] _⟩
    | cons answer rest =>
        rw [solve_eq_of_cons] at hlow
        cases answer with
        | passOn =>
            cases hlow
            exact ⟨_, by rw [solve_eq_of_cons, hafter], .mk hnext rest _⟩
        | _ =>
            cases hlow
            exact ⟨_, solve_eq_of_cons _ rest assumptions timeout, .mk hraised rest _⟩

section ReferenceSolver

variable {limits more : SolverLimits} {intake : Intake}

def Intake.withLimits (intake : Intake) (limits : SolverLimits) : Intake :=
  { intake with limits := limits }

namespace Intake

theorem checkLiterals_withLimits (lits : List Int) :
    (intake.withLimits more).checkLiterals lits = intake.checkLiterals lits := by
  induction lits with
  | nil => rfl
  | cons lit rest ih =>
      rw [checkLiterals, checkLiterals, ih]
      rfl

theorem checkReserve_withLimits {maxVar : Nat} (hvars : intake.limits.maxVars ≤ more.maxVars)
    (h : intake.checkReserve maxVar = .ok ()) :
    (intake.withLimits more).checkReserve maxVar = .ok () := by
  unfold checkReserve withLimits at *
  split at h
  · cases h
  · rw [if_neg (by simp only; omega)]

theorem checkClause_withLimits {lits : List Int}
    (hclauses : intake.limits.maxClauses ≤ more.maxClauses)
    (h : intake.checkClause lits = .ok ()) :
    (intake.withLimits more).checkClause lits = .ok () := by
  obtain ⟨⟨⟩, hliterals, hrest⟩ := except_bind_eq_ok h
  unfold checkClause
  rw [checkLiterals_withLimits, hliterals]
  cases lits with
  | nil => cases hrest
  | cons lit rest =>
      dsimp only [bind, Except.bind] at hrest ⊢
      have hroom : ¬ intake.limits.maxClauses ≤ intake.clauseCount := by
        intro hfull
        rw [if_pos hfull] at hrest
        cases hrest
      have hmore : ¬ (intake.withLimits more).limits.maxClauses ≤
          (intake.withLimits more).clauseCount := by
        simp only [withLimits]
        omega
      rw [if_neg hroom] at hrest
      rw [if_neg hmore]
      exact hrest

theorem accept_withLimits (lits : List Int) :
    (intake.withLimits more).accept lits = (intake.accept lits).withLimits more := by
  match lits with
  | [] => rfl
  | [_] => rfl
  | _ :: _ :: _ => rfl

end Intake

namespace ReferenceSolver

def withLimits (solver : ReferenceSolver) (limits : SolverLimits) : ReferenceSolver :=
  { solver with intake := solver.intake.withLimits limits }

/-- Only the second solver has the higher caps. -/
structure Raised (limits more : SolverLimits) (low high : ReferenceSolver) : Prop where
  limits_eq : low.intake.limits = limits
  high_eq : high = low.withLimits more

theorem raises_backend (clock : Clock) (hvars : limits.maxVars ≤ more.maxVars)
    (hclauses : limits.maxClauses ≤ more.maxClauses) :
    (backend clock).Raises (Raised limits more) where
  maxVars_le := by
    rintro low _ ⟨rfl, rfl⟩
    exact hvars
  maxClauses_le := by
    rintro low _ ⟨rfl, rfl⟩
    exact hclauses
  numVars_eq := by
    rintro low _ ⟨-, rfl⟩
    rfl
  numClauses_eq := by
    rintro low _ ⟨-, rfl⟩
    rfl
  reserve := by
    rintro low _ next ⟨rfl, rfl⟩ maxVar hlow
    cases hcheck : low.intake.checkReserve maxVar with
    | error error =>
        simp only [backend, SolverM.checked, hcheck] at hlow
        cases hlow
    | ok _ =>
        simp only [backend, SolverM.checked, hcheck] at hlow
        cases hlow
        refine ⟨(low.reserve maxVar).withLimits more, ?_, rfl, rfl⟩
        have hhigh := Intake.checkReserve_withLimits hvars hcheck
        simp only [backend, SolverM.checked, withLimits, hhigh]
        rfl
  addClause := by
    rintro low _ next ⟨rfl, rfl⟩ lits hlow
    cases hcheck : low.intake.checkClause lits with
    | error error =>
        simp only [backend, SolverM.checked, hcheck] at hlow
        cases hlow
    | ok _ =>
        simp only [backend, SolverM.checked, hcheck] at hlow
        cases hlow
        refine ⟨(low.accept lits).withLimits more, ?_, low.intake.limits_accept lits, rfl⟩
        have hhigh := Intake.checkClause_withLimits hclauses hcheck
        simp only [backend, SolverM.checked, withLimits, hhigh, accept, Intake.accept_withLimits]
  solve := by
    rintro low _ result next ⟨rfl, rfl⟩ assumptions timeout hlow
    have hsame : (low.withLimits more).intake.checkLiterals assumptions =
        low.intake.checkLiterals assumptions := Intake.checkLiterals_withLimits assumptions
    cases hcheck : low.intake.checkLiterals assumptions with
    | error error =>
        simp only [backend, SolverM.checked, hcheck] at hlow
        cases hlow
        refine ⟨low.withLimits more, ?_, rfl, rfl⟩
        simp only [backend, SolverM.checked, hsame, hcheck]
    | ok _ =>
        simp only [backend, SolverM.checked, hcheck] at hlow
        cases hlow
        refine ⟨(low.solve clock assumptions timeout).2.withLimits more, ?_, rfl, rfl⟩
        simp only [backend, SolverM.checked, hsame, hcheck]
        rfl

end ReferenceSolver

end ReferenceSolver

section Accounts

variable {σ : Type} {behind : Backend σ} {intake : σ → Intake}

theorem Scripted.followsIntake_backend (h : behind.FollowsIntake intake) :
    (backend behind).FollowsIntake fun scripted => intake scripted.solver where
  limits_eq scripted := h.limits_eq scripted.solver
  numVars_eq scripted := h.numVars_eq scripted.solver
  numClauses_eq scripted := h.numClauses_eq scripted.solver
  reserve maxVar scripted := h.reserve maxVar scripted.solver
  addClause lits scripted := h.addClause lits scripted.solver
  solve assumptions timeout := by
    rintro ⟨solver, script, log⟩
    cases script with
    | nil => exact h.solve assumptions timeout solver
    | cons answer rest =>
        rw [solve_eq_of_cons]
        cases answer with
        | passOn => exact h.solve assumptions timeout solver
        | _ => rfl

def HasIntake (intake : σ → Intake) (solver : σ) (current : Intake) (_ : List SolverCall) : Prop :=
  intake solver = current

theorem Backend.FollowsIntake.accounts_intake (h : behind.FollowsIntake intake) :
    behind.Accounts (HasIntake intake) where
  limits_eq := by
    rintro solver _ _ rfl
    exact h.limits_eq solver
  numClauses_eq := by
    rintro solver _ _ rfl
    exact h.numClauses_eq solver
  reserve := by
    rintro solver _ _ rfl maxVar hcheck
    obtain ⟨hresult, hnext⟩ :=
      exists_of_receive (Intake.receive_reserve hcheck) (h.reserve maxVar solver)
    exact ⟨_, Prod.ext hresult rfl, hnext⟩
  addClause := by
    rintro solver _ _ rfl lits hcheck
    obtain ⟨hresult, hnext⟩ :=
      exists_of_receive (Intake.receive_addClause hcheck) (h.addClause lits solver)
    exact ⟨_, Prod.ext hresult rfl, hnext⟩
  solve := by
    rintro solver _ _ rfl assumptions _ timeout
    exact h.solve assumptions timeout solver

end Accounts

inductive MeetsBound : Except PlanError PlanRun → Prop
  | exhausted (maxSteps : Nat) (stats : List HorizonStats) :
      MeetsBound (.ok ⟨.resourceExhausted maxSteps, stats⟩)
  | overflow (step : Nat) (resource : Resource) (required limit : Nat) :
      MeetsBound (.error (.encoding (.encodingOverflow step resource required limit)))

theorem meetsBound_of_overflow? {problem : Problem} {semantics : StepSemantics}
    {limits : SolverLimits} {step : Nat} {error : EncodingError}
    (h : problem.overflow? semantics limits step = some error) :
    MeetsBound (.error (.encoding error)) := by
  unfold Problem.overflow? at h
  split at h
  · cases h
    exact .overflow ..
  · split at h
    · cases h
      exact .overflow ..
    · cases h

/-- The second run does what the first does, and more only if the first met a bound. -/
structure RunExtends {σ : Type} (low high : Except PlanError PlanRun × Scripted σ)
    (lowStats highStats : List HorizonStats) : Prop where
  log : low.2.log.toList <+: high.2.log.toList
  stats : lowStats <+: highStats
  same : ¬ MeetsBound low.1 → high.1 = low.1 ∧ high.2.log = low.2.log

section Simulation

variable {σ : Type} {behind : Backend σ} {raised : σ → σ → Prop}

theorem runExtends_of_raised {low high : Scripted σ} {answer : Except PlanError PlanRun}
    {stats : List HorizonStats} (h : Scripted.Raised raised low high) :
    RunExtends (answer, low) (answer, high) stats stats := by
  cases h
  exact ⟨List.prefix_rfl, List.prefix_rfl, fun _ => ⟨rfl, rfl⟩⟩

theorem Scripted.Raised.log_eq {low high : Scripted σ} (h : Scripted.Raised raised low high) :
    high.log = low.log := by
  cases h
  rfl

variable {intake : σ → Intake} {limits : SolverLimits} {config : PlannerConfig}
  {problem : Problem} {horizon maxSteps : Nat} {encoder : Encoder problem config.semantics}
  {stats : Array HorizonStats} {low high : Scripted σ} {clauses : List Clause}

/-- The higher run goes on from where the lower one stops at a bound. -/
theorem runExtends_of_meetsBound {answer : Except PlanError PlanRun} {timeout : Option Nat}
    (hmeets : MeetsBound answer) (hraised : Scripted.Raised raised low high) :
    RunExtends (answer, low)
      (deepen (Scripted.backend behind) timeout maxSteps encoder horizon stats high)
      stats.toList
      (gatherFrom (Scripted.backend behind) timeout maxSteps encoder horizon stats
        high).toList where
  log := by
    rw [← hraised.log_eq]
    exact (Scripted.moves_log behind).deepen timeout maxSteps encoder horizon stats high
  stats := prefix_gatherFrom
  same := fun hmeets' => absurd hmeets hmeets'

theorem runExtends_last_round (hraises : behind.Raises raised)
    (hfollows : behind.FollowsIntake intake) (hroom : limits.maxVars ≤ variableRoom)
    (hsteps : config.maxSteps ≤ maxSteps) (hraised : Scripted.Raised raised low high)
    (hready : Ready limits horizon encoder clauses (intake low.solver))
    (hle : horizon ≤ config.maxSteps)
    (hlast : ¬ GoesOn (Scripted.backend behind) config horizon encoder low) :
    RunExtends
      (deepen (Scripted.backend behind) config.timeoutMs? config.maxSteps encoder horizon stats low)
      (deepen (Scripted.backend behind) config.timeoutMs? maxSteps encoder horizon stats high)
      (gatherFrom (Scripted.backend behind) config.timeoutMs? config.maxSteps encoder horizon stats
        low).toList
      (gatherFrom (Scripted.backend behind) config.timeoutMs? maxSteps encoder horizon stats
        high).toList := by
  have hscripted := Scripted.raises_backend hraises
  have haccounts := (Scripted.followsIntake_backend hfollows).accounts_intake
  have hintake : HasIntake (fun scripted => intake scripted.solver) low (intake low.solver) [] :=
    rfl
  cases hfits : problem.overflow? config.semantics limits horizon with
  | some error =>
      have hsubmit := hready.submitStep_of_overflow haccounts.toTakes hintake hfits
      rw [deepen_of_submitStep_error hsubmit, gatherFrom_of_submitStep_error hsubmit]
      exact runExtends_of_meetsBound (meetsBound_of_overflow? hfits) hraised
  | none =>
      obtain ⟨submitted, middle, delta, after, goal, earlier, hsubmit, -, hgoal, -⟩ :=
        hready.exists_accounted_round haccounts hroom hintake hfits config.timeoutMs?
      obtain ⟨highMiddle, hhighSubmit, hmiddle⟩ := hscripted.submitStep hraised hsubmit
      cases hsolve : solveHorizon (Scripted.backend behind) config.timeoutMs? submitted horizon
          middle with
      | mk answer next =>
      obtain ⟨highNext, hhighSolve, hnext⟩ := hscripted.solveHorizon hmiddle hsolve
      cases answer with
      | error error =>
          rw [deepen_of_solveHorizon_error hsubmit hsolve,
            deepen_of_solveHorizon_error hhighSubmit hhighSolve,
            gatherFrom_of_solveHorizon_error hsubmit hsolve,
            gatherFrom_of_solveHorizon_error hhighSubmit hhighSolve]
          exact runExtends_of_raised hnext
      | ok solved =>
          obtain ⟨result, entry⟩ := solved
          rw [deepen_of_solveHorizon_ok hsubmit hsolve,
            deepen_of_solveHorizon_ok hhighSubmit hhighSolve,
            gatherFrom_of_solveHorizon_ok hsubmit hsolve,
            gatherFrom_of_solveHorizon_ok hhighSubmit hhighSolve]
          cases result with
          | sat model => exact runExtends_of_raised hnext
          | timedOut => exact runExtends_of_raised hnext
          | unsat =>
              have hend : ¬ horizon < config.maxSteps := fun hlt =>
                hlast ⟨submitted, middle, entry, next, hsubmit, hsolve, hlt⟩
              simp only [afterSolving, true_and, if_neg hend]
              by_cases hlt : horizon < maxSteps
              · simp only [if_pos hlt]
                exact runExtends_of_meetsBound (.exhausted ..) hnext
              · have hsame : config.maxSteps = maxSteps := by omega
                simp only [if_neg hlt, hsame]
                exact runExtends_of_raised hnext

end Simulation

def scriptedRun (clock : Clock) (script : List ScriptedAnswer) (config : PlannerConfig)
    (problem : Problem) : Except PlanError PlanRun × Scripted ReferenceSolver :=
  planWith (Scripted.backend (ReferenceSolver.backend clock)) config problem
    ⟨.init config.limits, script, #[]⟩

def scriptedStats (clock : Clock) (script : List ScriptedAnswer) (config : PlannerConfig)
    (problem : Problem) : List HorizonStats :=
  gatheredStats (Scripted.backend (ReferenceSolver.backend clock)) config problem
    ⟨.init config.limits, script, #[]⟩

/-- With a later last horizon and higher caps, the solver is asked and answers as before and then
possibly more; the run changes its result only if it met a bound. -/
theorem raised_bounds_extend_run (clock : Clock) (script : List ScriptedAnswer)
    (config : PlannerConfig) (problem : Problem) {maxSteps : Nat} {limits : SolverLimits}
    (hsteps : config.maxSteps ≤ maxSteps) (hvars : config.limits.maxVars ≤ limits.maxVars)
    (hclauses : config.limits.maxClauses ≤ limits.maxClauses)
    (hroom : limits.maxVars ≤ variableRoom) :
    ∃ answer last higherAnswer higherLast,
      scriptedRun clock script config problem = (answer, last) ∧
      scriptedRun clock script (config.withBounds maxSteps limits) problem =
        (higherAnswer, higherLast) ∧
      last.log.toList <+: higherLast.log.toList ∧
      scriptedStats clock script config problem <+:
        scriptedStats clock script (config.withBounds maxSteps limits) problem ∧
      (∀ run, answer = .ok run → run.stats = scriptedStats clock script config problem) ∧
      (∀ run, higherAnswer = .ok run →
        run.stats = scriptedStats clock script (config.withBounds maxSteps limits) problem) ∧
      (¬ MeetsBound answer → higherAnswer = answer ∧ higherLast.log = last.log) := by
  have hextends : RunExtends (scriptedRun clock script config problem)
      (scriptedRun clock script (config.withBounds maxSteps limits) problem)
      (scriptedStats clock script config problem)
      (scriptedStats clock script (config.withBounds maxSteps limits) problem) := by
    have hraises := ReferenceSolver.raises_backend clock hvars hclauses
    have hstart : Scripted.Raised (ReferenceSolver.Raised config.limits limits)
        ⟨.init config.limits, script, #[]⟩ ⟨.init limits, script, #[]⟩ :=
      .mk ⟨rfl, rfl⟩ script #[]
    unfold scriptedRun scriptedStats
    cases hpossible : problem.goalPossiblyReachable with
    | false =>
        rw [planWith_eq_unreachable hpossible, planWith_eq_unreachable hpossible, gatheredStats,
          gatheredStats, hpossible]
        exact runExtends_of_raised hstart
    | true =>
        obtain ⟨horizon, encoder, stats, state, hcomes, hlast⟩ :
            ∃ horizon encoder stats state,
              ComesTo (Scripted.backend (ReferenceSolver.backend clock)) config problem
                ⟨.init config.limits, script, #[]⟩ horizon encoder stats state ∧
              ¬ GoesOn (Scripted.backend (ReferenceSolver.backend clock)) config horizon encoder
                state := exists_last_round hpossible
        have hfollows := ReferenceSolver.followsIntake_backend clock
        obtain ⟨clauses, _, _, hready, rfl⟩ :=
          hcomes.exists_accounted (Scripted.followsIntake_backend hfollows).accounts_intake
            (by rfl) (hvars.trans hroom)
        obtain ⟨after, hhigher, hraised⟩ :=
          hcomes.raise (Scripted.raises_backend hraises) hstart hsteps
        rw [hcomes.planWith_eq, hhigher.planWith_eq, hcomes.gatheredStats_eq,
          hhigher.gatheredStats_eq]
        exact runExtends_last_round hraises hfollows (hvars.trans hroom) hsteps hraised hready
          hcomes.le_maxSteps hlast
  refine ⟨_, _, _, _, rfl, rfl, hextends.log, hextends.stats, fun run hrun => ?_,
    fun run hrun => ?_, hextends.same⟩
  · exact stats_eq_gatheredStats (Prod.ext hrun rfl)
  · exact stats_eq_gatheredStats (Prod.ext hrun rfl)

theorem raised_bounds_extend_run_lamps :
    (scriptedRun .patient [.unsat] { maxSteps := 0 } lamps).2.log.toList <+:
      (scriptedRun .patient [.unsat] { maxSteps := 1, limits := { maxVars := 2000000 } }
        lamps).2.log.toList := by
  obtain ⟨answer, last, higherAnswer, higherLast, hrun, hhigher, hlog, -⟩ :=
    raised_bounds_extend_run .patient [.unsat] { maxSteps := 0 } lamps
      (show 0 ≤ 1 by decide)
      (show (1000000 : Nat) ≤ ({ maxVars := 2000000 } : SolverLimits).maxVars by decide)
      (show (500000 : Nat) ≤ ({ maxVars := 2000000 } : SolverLimits).maxClauses by decide)
      (by decide)
  rw [hrun]
  exact (congrArg (fun run => last.log.toList <+: run.2.log.toList) hhigher).mpr hlog

end BoundedPlanning
