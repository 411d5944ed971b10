import BoundedPlanning.Proofs.Horizons
import BoundedPlanning.Proofs.PlanningRounds
import BoundedPlanning.Proofs.SolverContract

namespace BoundedPlanning

/-- The error of the first step that exceeds a cap, variables before clauses. -/
def Problem.overflow? (problem : Problem) (semantics : StepSemantics) (limits : SolverLimits)
    (step : Nat) : Option EncodingError :=
  if limits.maxVars < problem.variablesThrough semantics step then
    some (.encodingOverflow step .variables (problem.variablesThrough semantics step)
      limits.maxVars)
  else if limits.maxClauses < problem.clausesThrough semantics step then
    some (.encodingOverflow step .clauses (problem.clausesThrough semantics step)
      limits.maxClauses)
  else none

theorem Problem.overflow?_eq_none_iff {problem : Problem} {semantics : StepSemantics}
    {limits : SolverLimits} {step : Nat} :
    problem.overflow? semantics limits step = none ↔
      problem.variablesThrough semantics step ≤ limits.maxVars ∧
        problem.clausesThrough semantics step ≤ limits.maxClauses := by
  unfold Problem.overflow?
  split
  · simp only [reduceCtorEq, false_iff]
    omega
  · split
    · simp only [reduceCtorEq, false_iff]
      omega
    · simp only [true_iff]
      omega

theorem Problem.step_of_overflow? {problem : Problem} {semantics : StepSemantics}
    {limits : SolverLimits} {step named : Nat} {resource : Resource} {required limit : Nat}
    (h : problem.overflow? semantics limits step =
      some (.encodingOverflow named resource required limit)) : named = step := by
  unfold Problem.overflow? at h
  split at h
  · cases h
    rfl
  · split at h <;> cases h
    rfl

variable {σ : Type} {backend : Backend σ} {record : σ → Intake → List SolverCall → Prop}
  {limits : SolverLimits} {problem : Problem} {semantics : StepSemantics} {last horizon : Nat}
  {encoder : Encoder problem semantics} {solver : σ} {clauses : List Clause} {intake : Intake}
  {calls : List SolverCall}

/-- An intake that has accepted exactly the clauses of the steps 0 to `last`. -/
structure Submitted (limits : SolverLimits) (last : Nat) (encoder : Encoder problem semantics)
    (clauses : List Clause) (intake : Intake) : Prop where
  encode_eq : encodeThrough problem semantics last = .ok (clauses, encoder)
  limits_eq : intake.limits = limits
  reserved_eq : intake.reserved = encoder.index.size
  clauseCount_eq : intake.clauseCount = clauses.length
  remembers : intake.Remembers (clauses.map Clause.literals)

/-- The step of the horizon comes next, after the given clauses. -/
structure Ready (limits : SolverLimits) (horizon : Nat) (encoder : Encoder problem semantics)
    (clauses : List Clause) (intake : Intake) : Prop where
  limits_eq : intake.limits = limits
  reserved_le : intake.reserved ≤ encoder.index.size
  vars_eq : encoder.index.size + (encoder.stepSize horizon).vars =
    problem.variablesThrough semantics horizon
  clauseCount_eq : intake.clauseCount = clauses.length
  clauses_eq : clauses.length + (encoder.stepSize horizon).clauses =
    problem.clausesThrough semantics horizon
  remembers : intake.Remembers (clauses.map Clause.literals)
  encode_eq : encodeThrough problem semantics horizon =
    (encoder.encodeStep horizon).map fun step => (clauses ++ step.1, step.2)

theorem ready_init :
    Ready limits 0 (Encoder.init problem semantics) [] (.init limits) where
  limits_eq := rfl
  reserved_le := Nat.zero_le _
  vars_eq := by simp [Encoder.stepSize, Problem.variablesThrough, Encoder.init,
    VariableIndex.empty, VariableIndex.size]
  clauseCount_eq := rfl
  clauses_eq := by simp [Encoder.stepSize, Problem.clausesThrough]
  remembers := Intake.remembers_init limits
  encode_eq := by
    rw [encodeThrough]
    cases (Encoder.init problem semantics).encodeStep 0 <;> rfl

theorem Submitted.reserved_eq_variablesThrough
    (h : Submitted limits last encoder clauses intake) :
    intake.reserved = problem.variablesThrough semantics last := by
  obtain ⟨vars, hreads⟩ := Encoder.exists_reads h.encode_eq
  rw [h.reserved_eq, hreads.encodedTo.size_eq]

theorem Submitted.clauseCount_eq_clausesThrough
    (h : Submitted limits last encoder clauses intake) :
    intake.clauseCount = problem.clausesThrough semantics last := by
  rw [h.clauseCount_eq, Encoder.length_of_encodeThrough h.encode_eq]

theorem Submitted.ready (h : Submitted limits last encoder clauses intake) :
    Ready limits (last + 1) encoder clauses intake := by
  obtain ⟨vars, hreads⟩ := Encoder.exists_reads h.encode_eq
  refine ⟨h.limits_eq, h.reserved_eq.le, ?_, h.clauseCount_eq, ?_, h.remembers, ?_⟩
  · rw [hreads.encodedTo.size_eq, Encoder.stepSize, if_neg (Nat.succ_ne_zero last),
      encoder.scheme_eq, Problem.exclusion_vars]
    simp only [Problem.variablesThrough, Nat.succ_mul]
    omega
  · rw [Encoder.length_of_encodeThrough h.encode_eq, Encoder.stepSize,
      if_neg (Nat.succ_ne_zero last), encoder.scheme_eq]
    simp only [Problem.clausesThrough, Nat.succ_mul]
    omega
  · simp only [encodeThrough, h.encode_eq, bind, Except.bind]
    cases encoder.encodeStep (last + 1) <;> rfl

theorem Submitted.checkLiterals (h : Submitted limits last encoder clauses intake) :
    ∃ goal, encoder.goalLiterals last = .ok goal ∧ intake.checkLiterals goal = .ok () := by
  obtain ⟨vars, hreads⟩ := Encoder.exists_reads h.encode_eq
  obtain ⟨goal, hgoal, hrange, -⟩ := hreads.encodedTo.exists_goalLiterals
  refine ⟨goal, hgoal, ?_⟩
  rw [Intake.checkLiterals_eq_ok_iff, h.reserved_eq]
  exact hrange

theorem Ready.encodeStep_eq_ok_iff (h : Ready limits horizon encoder clauses intake)
    {delta : List Clause} {next : Encoder problem semantics} :
    encoder.encodeStep horizon = .ok (delta, next) ↔
      encodeThrough problem semantics horizon = .ok (clauses ++ delta, next) := by
  rw [h.encode_eq]
  cases encoder.encodeStep horizon with
  | error error => simp [Except.map]
  | ok step =>
      obtain ⟨other, after⟩ := step
      simp [Except.map]

theorem Ready.exists_encodeStep (h : Ready limits horizon encoder clauses intake)
    (hencodes : problem.Encodes semantics horizon) :
    ∃ delta next, encoder.encodeStep horizon = .ok (delta, next) := by
  obtain ⟨all, after, hall⟩ := hencodes
  rw [h.encode_eq] at hall
  cases hstep : encoder.encodeStep horizon with
  | error error => simp [hstep, Except.map] at hall
  | ok step => exact ⟨step.1, step.2, rfl⟩

theorem Ready.checkCapacity_eq (hbackend : backend.Takes record)
    (hrecord : record solver intake calls)
    (h : Ready limits horizon encoder clauses intake) :
    checkCapacity (backend.limits solver) encoder.index.size (backend.numClauses solver)
        (encoder.stepSize horizon) horizon =
      match problem.overflow? semantics limits horizon with
      | none => .ok ()
      | some error => .error error := by
  rw [hbackend.limits_eq hrecord, hbackend.numClauses_eq hrecord, checkCapacity, h.limits_eq,
    h.vars_eq, h.clauseCount_eq, h.clauses_eq, Problem.overflow?]
  split
  · rfl
  · split <;> rfl

theorem Ready.checkCapacity_of_fits (hbackend : backend.Takes record)
    (hrecord : record solver intake calls) (h : Ready limits horizon encoder clauses intake)
    (hfits : problem.overflow? semantics limits horizon = none) :
    checkCapacity (backend.limits solver) encoder.index.size (backend.numClauses solver)
      (encoder.stepSize horizon) horizon = .ok () := by
  rw [h.checkCapacity_eq hbackend hrecord, hfits]

/-- Clauses that are satisfied together with those before them are all accepted. -/
theorem exists_submit (hbackend : backend.Takes record) (hrecord : record solver intake calls)
    {accepted : List (List Int)} {delta : List Clause} {value : Valuation}
    (hremembers : intake.Remembers accepted)
    (haccepted : ∀ clause ∈ accepted, value.Satisfies clause)
    (hdelta : ∀ clause ∈ delta, value.Satisfies clause.literals)
    (hrange : ∀ clause ∈ delta, ∀ lit ∈ clause.literals, lit.natAbs ≤ intake.reserved)
    (hroom : intake.clauseCount + delta.length ≤ intake.limits.maxClauses) :
    ∃ next nextIntake,
      (delta.forM fun clause => PlannerM.ofSolver (backend.addClause clause.literals)) solver =
        (.ok (), next) ∧
      record next nextIntake (calls ++ delta.map fun clause => .addClause clause.literals) ∧
      nextIntake.limits = intake.limits ∧ nextIntake.reserved = intake.reserved ∧
      nextIntake.clauseCount = intake.clauseCount + delta.length ∧
      nextIntake.Remembers (accepted ++ delta.map Clause.literals) := by
  induction delta generalizing solver intake calls accepted with
  | nil =>
      refine ⟨solver, intake, rfl, ?_, rfl, rfl, rfl, ?_⟩
      · simpa using hrecord
      · simpa using hremembers
  | cons clause rest ih =>
      rw [List.forall_mem_cons] at hdelta hrange
      rw [List.length_cons] at hroom
      have hcheck : intake.checkClause clause.literals = .ok () :=
        hremembers.checkClause haccepted hdelta.1
          (fun lit hlit => ⟨clause.nonzero lit hlit, hrange.1 lit hlit⟩) (by omega)
      obtain ⟨middle, hmiddle, hmiddleRecord⟩ := hbackend.addClause hrecord _ hcheck
      obtain ⟨next, nextIntake, hnext, hnextRecord, hlimits, hreserved, hcount,
        hnextRemembers⟩ :=
        ih hmiddleRecord hremembers.accept
          (List.forall_mem_append.mpr ⟨haccepted, List.forall_mem_singleton.mpr hdelta.1⟩)
          hdelta.2 (by simpa using hrange.2) (by simp; omega)
      refine ⟨next, nextIntake, ?_, ?_, by simpa using hlimits, by simpa using hreserved, ?_, ?_⟩
      · rw [List.forM, exceptT_bind_of_ok (PlannerM.ofSolver_of_ok hmiddle)]
        exact hnext
      · simpa using hnextRecord
      · rw [hcount, Intake.clauseCount_accept, List.length_cons]
        omega
      · simpa using hnextRemembers

theorem Ready.exists_submitStep (hbackend : backend.Takes record)
    (hrecord : record solver intake calls)
    (h : Ready limits horizon encoder clauses intake)
    (hencodes : problem.Encodes semantics horizon)
    (hfits : problem.overflow? semantics limits horizon = none) :
    ∃ next nextSolver delta nextIntake,
      submitStep backend encoder horizon solver = (.ok next, nextSolver) ∧
      record nextSolver nextIntake (calls ++ submissionCalls next.index.size delta) ∧
      Submitted limits horizon next (clauses ++ delta) nextIntake := by
  obtain ⟨hvars, hclauses⟩ := Problem.overflow?_eq_none_iff.mp hfits
  obtain ⟨delta, next, hnext⟩ := h.exists_encodeStep hencodes
  have hencode := h.encodeStep_eq_ok_iff.mp hnext
  obtain ⟨vars, hreads⟩ := Encoder.exists_reads hencode
  have hsize := hreads.encodedTo.size_eq
  have hlength := Encoder.length_of_encodeThrough hencode
  have hreserved : max intake.reserved next.index.size = next.index.size := by
    have := h.reserved_le
    have := h.vars_eq
    omega
  have hreserve : intake.checkReserve next.index.size = .ok () := by
    rw [Intake.checkReserve, if_neg]
    rw [h.limits_eq, hsize]
    omega
  obtain ⟨middle, hmiddle, hmiddleRecord⟩ := hbackend.reserve hrecord _ hreserve
  -- Taking no action satisfies all clauses, so no clause contradicts an accepted one.
  obtain ⟨value, hvalue⟩ := exists_idle_model hencode
  rw [List.forall_mem_append] at hvalue
  have hrange : ∀ clause ∈ delta, ∀ lit ∈ clause.literals,
      lit.natAbs ≤ (intake.reserve next.index.size).reserved := by
    intro clause hclause lit hlit
    rw [Intake.reserve, hreserved]
    exact hreads.natAbs_le clause (List.mem_append_right _ hclause) lit hlit
  have hcount : (intake.reserve next.index.size).clauseCount + delta.length ≤
      (intake.reserve next.index.size).limits.maxClauses := by
    rw [Intake.reserve, h.clauseCount_eq, ← List.length_append, hlength, h.limits_eq]
    exact hclauses
  obtain ⟨nextSolver, nextIntake, hsubmit, hnextRecord, hnextLimits, hnextReserved, hnextCount,
    hremembers⟩ := exists_submit hbackend hmiddleRecord h.remembers
      (satisfies_map_literals_iff.mpr hvalue.1) hvalue.2 hrange hcount
  refine ⟨next, nextSolver, delta, nextIntake, ?_, ?_, hencode, ?_, ?_, ?_, ?_⟩
  · rw [submitStep_of_encodeStep_ok (h.checkCapacity_of_fits hbackend hrecord hfits) hnext,
      exceptT_bind_of_ok (PlannerM.ofSolver_of_ok hmiddle), exceptT_bind_of_ok hsubmit]
    rfl
  · simpa [submissionCalls] using hnextRecord
  · exact hnextLimits.trans h.limits_eq
  · exact hnextReserved.trans hreserved
  · rw [hnextCount, Intake.reserve, h.clauseCount_eq, List.length_append]
  · rw [List.map_append]
    exact hremembers

/-- A step that exceeds a cap is given up before the first call. -/
theorem Ready.submitStep_of_overflow (hbackend : backend.Takes record)
    (hrecord : record solver intake calls)
    (h : Ready limits horizon encoder clauses intake) {error : EncodingError}
    (hoverflow : problem.overflow? semantics limits horizon = some error) :
    submitStep backend encoder horizon solver = (.error (.encoding error), solver) := by
  refine submitStep_of_capacity_error ?_
  rw [h.checkCapacity_eq hbackend hrecord, hoverflow]

theorem Ready.submitStep_of_not_encodes (hbackend : backend.Takes record)
    (hrecord : record solver intake calls)
    (h : Ready limits horizon encoder clauses intake)
    (hencodes : ¬ problem.Encodes semantics horizon)
    (hfits : problem.overflow? semantics limits horizon = none) :
    ∃ error, submitStep backend encoder horizon solver = (.error (.encoding error), solver) := by
  cases hstep : encoder.encodeStep horizon with
  | error error =>
      exact ⟨error,
        submitStep_of_encodeStep_error (h.checkCapacity_of_fits hbackend hrecord hfits) hstep⟩
  | ok step => exact absurd ⟨_, _, h.encodeStep_eq_ok_iff.mp hstep⟩ hencodes

section Rounds

/-- Besides, `solve` leaves the intake as it is, whatever it answers. -/
structure Backend.Accounts {σ : Type} (backend : Backend σ)
    (record : σ → Intake → List SolverCall → Prop) : Prop extends backend.Takes record where
  solve : ∀ {solver intake calls}, record solver intake calls → ∀ assumptions,
    intake.checkLiterals assumptions = .ok () → ∀ timeout,
      record (backend.solve assumptions timeout solver).2 intake
        (calls ++ [.solve assumptions timeout])

variable {config : PlannerConfig} {stats : Array HorizonStats} {state : σ}
  {current : Intake} {encoder : Encoder problem config.semantics}

/-- A step that fits is submitted, and the solver is called with assumptions that pass the check. -/
theorem Ready.exists_accounted_round (hbackend : backend.Accounts record)
    (hlimits : limits.maxVars ≤ variableRoom) (hrecord : record state current calls)
    (h : Ready limits horizon encoder clauses current)
    (hfits : problem.overflow? config.semantics limits horizon = none) (timeout : Option Nat) :
    ∃ submitted middle delta after goal earlier,
      submitStep backend encoder horizon state = (.ok submitted, middle) ∧
      Submitted limits horizon submitted (clauses ++ delta) after ∧
      submitted.goalLiterals horizon = .ok goal ∧
      record middle after earlier ∧
      after.checkLiterals goal = .ok () ∧
      record (backend.solve goal timeout middle).2 after (earlier ++ [.solve goal timeout]) := by
  have hvars := (Problem.overflow?_eq_none_iff.mp hfits).1
  obtain ⟨submitted, middle, delta, after, hsubmit, hmiddle, hstep⟩ :=
    h.exists_submitStep hbackend.toTakes hrecord (Problem.encodes_of_room (hvars.trans hlimits))
      hfits
  obtain ⟨goal, hgoal, hcheck⟩ := hstep.checkLiterals
  exact ⟨submitted, middle, delta, after, goal, _, hsubmit, hstep, hgoal, hmiddle, hcheck,
    hbackend.solve hmiddle goal hcheck timeout⟩

theorem ComesTo.exists_accounted (hbackend : backend.Accounts record)
    (hrecord : record solver (.init limits) []) (hlimits : limits.maxVars ≤ variableRoom)
    (h : ComesTo backend config problem solver horizon encoder stats state) :
    ∃ clauses current calls, Ready limits horizon encoder clauses current ∧
      record state current calls := by
  induction h with
  | start _ => exact ⟨[], .init limits, [], ready_init, hrecord⟩
  | next _ hsubmit hsolve _ ih =>
      obtain ⟨clauses, current, calls, hready, hcurrent⟩ := ih
      cases hfits : problem.overflow? config.semantics limits _ with
      | some error =>
          -- Such a step is not submitted, so the run has not come further.
          rw [hready.submitStep_of_overflow hbackend.toTakes hcurrent hfits] at hsubmit
          cases hsubmit
      | none =>
          obtain ⟨submitted, middle, delta, after, goal, earlier, hround, hstep, hgoal, -, -,
            hnext⟩ := hready.exists_accounted_round hbackend hlimits hcurrent hfits config.timeoutMs?
          obtain ⟨hsame, rfl⟩ := Prod.mk.inj (hround.symm.trans hsubmit)
          obtain rfl := Except.ok.inj hsame
          cases hcall : backend.solve goal config.timeoutMs? middle with
          | mk result next =>
          rw [hcall] at hnext
          cases result with
          | error error =>
              rw [solveHorizon_of_error hgoal hcall] at hsolve
              cases hsolve
          | ok answer =>
              rw [solveHorizon_of_ok hgoal hcall] at hsolve
              cases hsolve
              exact ⟨_, after, _, hstep.ready, hnext⟩

end Rounds

end BoundedPlanning
