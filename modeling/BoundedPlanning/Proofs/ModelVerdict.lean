import BoundedPlanning.Proofs.CapacityCheck
import BoundedPlanning.Proofs.DecodedPlans
import BoundedPlanning.Proofs.FailedExecution
import BoundedPlanning.Proofs.RunEncoders
import Mathlib.Order.Minimal

namespace BoundedPlanning

namespace VariableIndex

def Knows (index : VariableIndex) (model : Model) : Prop :=
  ∀ var ∈ model.trueVars, var ≤ index.size

def Selects (index : VariableIndex) (model : Model) (horizon time id : Nat) : Prop :=
  time < horizon ∧ index.valueOf model.value? (.action id) time = some true

/-- The plan takes exactly the actions that the model takes, in canonical form. -/
structure SelectsPlan (index : VariableIndex) (semantics : StepSemantics) (model : Model)
    (horizon : Nat) (plan : Plan) : Prop where
  knows : index.Knows model
  canonical : plan.Canonical
  mem_actionsAt_iff : ∀ time id, id ∈ plan.actionsAt time ↔ index.Selects model horizon time id
  single : semantics = .sequential → ∀ time i j,
    index.Selects model horizon time i → index.Selects model horizon time j → i = j

end VariableIndex

/-- What becomes of a model at a horizon, by the first thing that is wrong with it. -/
inductive ModelVerdict (problem : Problem) (semantics : StepSemantics) (index : VariableIndex)
    (model : Model) (horizon : Nat) : Except PlanError Plan → Prop
  | unknownVariable {var : Nat} (htrue : var ∈ model.trueVars) (hunknown : index.size < var)
      (hleast : ∀ other ∈ model.trueVars, other < var → other ≤ index.size) :
      ModelVerdict problem semantics index model horizon
        (.error (.encoding (.unknownVariable var)))
  | multipleActions {time : Nat} {actions : List Nat} (hknows : index.Knows model)
      (hsequential : semantics = .sequential) (hascending : actions.Pairwise (· < ·))
      (hmem : ∀ id, id ∈ actions ↔ index.Selects model horizon time id)
      (hseveral : 1 < actions.length)
      (hfirst : ∀ earlier < time, ∀ i j, index.Selects model horizon earlier i →
        index.Selects model horizon earlier j → i = j) :
      ModelVerdict problem semantics index model horizon
        (.error (.encoding (.multipleActionsPerStep time actions)))
  | violated {plan : Plan} {time : Nat} {action : Action}
      (hplan : index.SelectsPlan semantics model horizon plan)
      (hviolation : plan.FirstViolation problem time action) :
      ModelVerdict problem semantics index model horizon
        (.error (.invalidPlan (.preconditionViolated time action.name)))
  | goalMissed {plan : Plan} {final : State}
      (hplan : index.SelectsPlan semantics model horizon plan)
      (hfinal : plan.simulate problem = .ok final)
      (hgoal : problem.goal.isSatisfiedBy final = false) :
      ModelVerdict problem semantics index model horizon (.error (.goalNotReached horizon))
  | accepted {plan : Plan} (hplan : index.SelectsPlan semantics model horizon plan)
      (hachieves : plan.achievesGoal problem = true) :
      ModelVerdict problem semantics index model horizon (.ok plan)

section Decoding

variable {semantics : StepSemantics} {index : VariableIndex} {model : Model} {horizon : Nat}

theorem decode_of_unknownVariable (hindex : index.Consistent)
    (hwidth : ∀ var ∈ model.trueVars, var < bound32) {var : Nat} (htrue : var ∈ model.trueVars)
    (hunknown : index.size < var)
    (hleast : ∀ other ∈ model.trueVars, other < var → other ≤ index.size) :
    decode index semantics model horizon = .error (.unknownVariable var) := by
  obtain ⟨before, after, htrueVars⟩ := List.append_of_mem htrue
  have hbefore : ∀ other ∈ before, ∃ entry, index.entityOf other = .ok entry := by
    intro other hother
    have hmem : other ∈ model.trueVars := by simp [htrueVars, hother]
    have hascending := model.pairwise_trueVars
    rw [htrueVars] at hascending
    have hlt := (List.pairwise_append.mp hascending).2.2 other hother var List.mem_cons_self
    exact (VariableIndex.exists_entityOf_iff hindex).mpr
      ⟨Model.pos_of_mem_trueVars hmem, hleast other hmem hlt⟩
  have hentities : index.trueEntities model = .error (.unknownVariable var) := by
    rw [VariableIndex.trueEntities, Model.trueNumbers_eq hwidth]
    exact except_mapM_eq_error_iff.mpr ⟨before, var, after, htrueVars, hbefore,
      (VariableIndex.entityOf_eq_error_iff hindex).mpr ⟨rfl, Or.inr hunknown⟩⟩
  rw [decode, hentities]
  rfl

theorem decode_of_multipleActions (hindex : index.Consistent) {time : Nat} {actions : List Nat}
    (hknows : index.Knows model) (hascending : actions.Pairwise (· < ·))
    (hmem : ∀ id, id ∈ actions ↔ index.Selects model horizon time id)
    (hseveral : 1 < actions.length)
    (hfirst : ∀ earlier < time, ∀ i j, index.Selects model horizon earlier i →
      index.Selects model horizon earlier j → i = j) :
    decode index .sequential model horizon = .error (.multipleActionsPerStep time actions) := by
  obtain ⟨entities, hentities, hcanonical, hactions⟩ :=
    exists_selectedSteps hindex hknows horizon
  let plan : Plan := ⟨stepsOfSelected (selectedActions entities horizon)⟩
  have hone : ∀ step ∈ plan.steps, step.time < time → step.actions.length ≤ 1 := by
    intro step hstep hlt
    by_contra hlong
    have hselects : ∀ i, (hi : i < step.actions.length) →
        index.Selects model horizon step.time step.actions[i] := by
      intro i hi
      have hmember := (hactions step.time step.actions[i]).mp
      rw [Plan.actionsAt_of_mem hcanonical.chronological hstep] at hmember
      exact hmember (List.getElem_mem hi)
    have heq := hfirst step.time hlt _ _ (hselects 0 (by omega)) (hselects 1 (by omega))
    have hstrict := List.pairwise_iff_getElem.mp (hcanonical.ascending step hstep) 0 1
      (by omega) (by omega) Nat.zero_lt_one
    omega
  obtain ⟨id, hid⟩ := List.exists_mem_of_length_pos (Nat.zero_lt_of_lt hseveral)
  obtain ⟨step, hstep, htime, -⟩ := (Plan.mem_actionsAt hcanonical.chronological).mp
    ((hactions time id).mpr ((hmem id).mp hid))
  have hstepActions : step.actions = actions := by
    refine eq_of_pairwise_key_lt (hcanonical.ascending step hstep) hascending fun other => ?_
    rw [hmem, ← Plan.actionsAt_of_mem hcanonical.chronological hstep, htime]
    exact hactions time other
  obtain ⟨before, after, hsteps⟩ := List.append_of_mem hstep
  have hfind : plan.steps.find? (fun step => decide (1 < step.actions.length)) = some step := by
    refine List.find?_eq_some_iff_append.mpr ⟨?_, before, after, hsteps, fun other hother => ?_⟩
    · rw [hstepActions]
      exact decide_eq_true hseveral
    · have hchronological := hcanonical.chronological
      rw [Plan.Chronological, hsteps] at hchronological
      have hlt := (List.pairwise_append.mp hchronological).2.2 other hother step List.mem_cons_self
      have hshort := hone other (hsteps ▸ List.mem_append_left _ hother) (htime ▸ hlt)
      simpa using hshort
  simp only [decode, hentities, bind, Except.bind]
  rw [hfind]
  simp only [htime, hstepActions]
  rfl

theorem decode_of_selectsPlan (hindex : index.Consistent) {plan : Plan}
    (h : index.SelectsPlan semantics model horizon plan) :
    decode index semantics model horizon = .ok plan := by
  obtain ⟨decoded, hdecoded, hcanonical, hactions⟩ := exists_decode_eq_ok hindex h.knows
    fun hsequential time htime i j hi hj => h.single hsequential time i j ⟨htime, hi⟩ ⟨htime, hj⟩
  rw [hdecoded, hcanonical.eq_of_actionsAt_iff h.canonical]
  intro time id
  rw [hactions, h.mem_actionsAt_iff]
  rfl

end Decoding

namespace VariableIndex.SelectsPlan

variable {problem : Problem} {semantics : StepSemantics} {encoder : Encoder problem semantics}
  {index : VariableIndex} {model : Model} {horizon : Nat} {plan : Plan}

theorem selects (h : index.SelectsPlan semantics model horizon plan) {step : PlanStep}
    (hstep : step ∈ plan.steps) {id : Nat} (hid : id ∈ step.actions) :
    index.Selects model horizon step.time id := by
  rw [← h.mem_actionsAt_iff, Plan.actionsAt_of_mem h.canonical.chronological hstep]
  exact hid

theorem time_lt (h : index.SelectsPlan semantics model horizon plan) {step : PlanStep}
    (hstep : step ∈ plan.steps) : step.time < horizon := by
  obtain ⟨id, hid⟩ := List.exists_mem_of_ne_nil _ (h.canonical.nonempty step hstep)
  exact (h.selects hstep hid).1

theorem lt_actionCount (hencoder : encoder.EncodedTo horizon)
    (h : encoder.index.SelectsPlan semantics model horizon plan) {time id : Nat}
    (hid : id ∈ plan.actionsAt time) : id < problem.actionCount := by
  obtain ⟨-, hvalue⟩ := (h.mem_actionsAt_iff time id).mp hid
  obtain ⟨var, hget, -⟩ := Option.bind_eq_some_iff.mp hvalue
  have hmem := (VariableIndex.exists_get?_iff_mem hencoder.consistent).mp ⟨var, hget⟩
  rw [hencoder.entries_eq] at hmem
  exact (action_mem_layout.mp hmem).1

theorem simulate_eq_error_iff (hencoder : encoder.EncodedTo horizon)
    (h : encoder.index.SelectsPlan semantics model horizon plan) {error : SimulationError} :
    plan.simulate problem = .error error ↔
      ∃ time action, plan.FirstViolation problem time action ∧
        error = .preconditionViolated time action.name := by
  rw [Plan.simulate_eq_stateAt fun step hstep => h.time_lt hstep,
    Plan.stateAt_eq_error_iff h.canonical.chronological h.canonical.pairwise_actionsAt
      fun time id hid => h.lt_actionCount hencoder hid]
  constructor
  · rintro ⟨time, -, action, hviolation⟩
    exact ⟨time, action, hviolation⟩
  · rintro ⟨time, action, ⟨state, id, hstate, hviolation⟩, herror⟩
    have hselects := (h.mem_actionsAt_iff time id).mp hviolation.mem
    exact ⟨time, hselects.1, action, ⟨state, id, hstate, hviolation⟩, herror⟩

end VariableIndex.SelectsPlan

section Accepting

variable {problem : Problem} {semantics : StepSemantics} {encoder : Encoder problem semantics}
  {model : Model} {horizon : Nat} {verdict : Except PlanError Plan}

theorem acceptModel_of_verdict (hencoder : encoder.EncodedTo horizon)
    (hwidth : ∀ var ∈ model.trueVars, var < bound32)
    (h : ModelVerdict problem semantics encoder.index model horizon verdict) :
    acceptModel encoder model horizon = verdict := by
  cases h with
  | unknownVariable htrue hunknown hleast =>
      rw [acceptModel, decode_of_unknownVariable hencoder.consistent hwidth htrue hunknown
        hleast]
      rfl
  | multipleActions hknows hsequential hascending hmem hseveral hfirst =>
      subst hsequential
      rw [acceptModel, decode_of_multipleActions hencoder.consistent hknows hascending hmem hseveral
        hfirst]
      rfl
  | violated hplan hviolation =>
      have hsimulate := (hplan.simulate_eq_error_iff hencoder).mpr ⟨_, _, hviolation, rfl⟩
      rw [acceptModel, decode_of_selectsPlan hencoder.consistent hplan]
      simp only [hsimulate, Except.mapError, bind, Except.bind]
  | goalMissed hplan hfinal hgoal =>
      rw [acceptModel, decode_of_selectsPlan hencoder.consistent hplan]
      simp only [hfinal, hgoal, Except.mapError, bind, Except.bind]
      rfl
  | accepted hplan hachieves =>
      obtain ⟨final, hfinal, hgoal⟩ := Plan.achievesGoal_iff.mp hachieves
      rw [acceptModel, decode_of_selectsPlan hencoder.consistent hplan]
      simp only [hfinal, hgoal, Except.mapError, bind, Except.bind, if_true]
      rfl

theorem achievesGoal_of_acceptModel {plan : Plan} (h : acceptModel encoder model horizon = .ok plan) :
    decode encoder.index semantics model horizon = .ok plan ∧ plan.achievesGoal problem = true := by
  obtain ⟨decoded, hdecode, h⟩ := except_bind_eq_ok h
  obtain ⟨final, hfinal, h⟩ := except_bind_eq_ok h
  split at h
  · rename_i hgoal
    cases h
    exact ⟨except_mapError_eq_ok hdecode,
      Plan.achievesGoal_iff.mpr ⟨final, except_mapError_eq_ok hfinal, hgoal⟩⟩
  · cases h

theorem exists_multipleActions {index : VariableIndex} (hindex : index.Consistent)
    (hknows : index.Knows model) {time : Nat}
    (hseveral : ∃ i j, index.Selects model horizon time i ∧ index.Selects model horizon time j ∧
      i ≠ j)
    (hfirst : ∀ earlier < time, ¬ ∃ i j, index.Selects model horizon earlier i ∧
      index.Selects model horizon earlier j ∧ i ≠ j) :
    ∃ verdict, ModelVerdict problem .sequential index model horizon verdict := by
  obtain ⟨entities, -, hcanonical, hactions⟩ := exists_selectedSteps hindex hknows horizon
  let plan : Plan := ⟨stepsOfSelected (selectedActions entities horizon)⟩
  obtain ⟨i, j, hi, hj, hne⟩ := hseveral
  refine ⟨_, .multipleActions hknows rfl (hcanonical.pairwise_actionsAt time) (hactions time) ?_ ?_⟩
  · exact one_lt_length_of_ne ((hactions time i).mpr hi) ((hactions time j).mpr hj) hne
  · intro earlier hlt a b ha hb
    by_contra hab
    exact hfirst earlier hlt ⟨a, b, ha, hb, hab⟩

theorem exists_verdict_of_selectsPlan (hencoder : encoder.EncodedTo horizon) {plan : Plan}
    (hplan : encoder.index.SelectsPlan semantics model horizon plan) :
    ∃ verdict, ModelVerdict problem semantics encoder.index model horizon verdict := by
  cases hsimulate : plan.simulate problem with
  | error error =>
      obtain ⟨time, action, hviolation, -⟩ := (hplan.simulate_eq_error_iff hencoder).mp hsimulate
      exact ⟨_, .violated hplan hviolation⟩
  | ok final =>
      cases hgoal : problem.goal.isSatisfiedBy final with
      | false => exact ⟨_, .goalMissed hplan hsimulate hgoal⟩
      | true => exact ⟨_, .accepted hplan (Plan.achievesGoal_iff.mpr ⟨final, hsimulate, hgoal⟩)⟩

theorem exists_verdict (hencoder : encoder.EncodedTo horizon) (model : Model) :
    ∃ verdict, ModelVerdict problem semantics encoder.index model horizon verdict := by
  by_cases hunknown : ∃ var, var ∈ model.trueVars ∧ encoder.index.size < var
  · obtain ⟨var, hleast⟩ := exists_minimal_of_wellFoundedLT _ hunknown
    refine ⟨_, .unknownVariable hleast.prop.1 hleast.prop.2 fun other hother hlt => ?_⟩
    exact Nat.le_of_not_lt fun hlarge => hleast.not_prop_of_lt hlt ⟨hother, hlarge⟩
  have hknows : encoder.index.Knows model := fun var hvar =>
    Nat.le_of_not_lt fun hlarge => hunknown ⟨var, hvar, hlarge⟩
  by_cases hsingle : semantics = .sequential → ∀ time i j,
      encoder.index.Selects model horizon time i → encoder.index.Selects model horizon time j →
        i = j
  · obtain ⟨plan, -, hcanonical, hactions⟩ := exists_decode_eq_ok hencoder.consistent hknows
      fun hsequential time htime i j hi hj =>
        hsingle hsequential time i j ⟨htime, hi⟩ ⟨htime, hj⟩
    exact exists_verdict_of_selectsPlan hencoder ⟨hknows, hcanonical, hactions, hsingle⟩
  · obtain ⟨rfl, hseveral⟩ := Classical.not_imp.mp hsingle
    push Not at hseveral
    obtain ⟨time, hfirst⟩ := exists_minimal_of_wellFoundedLT _ hseveral
    exact exists_multipleActions hencoder.consistent hknows hfirst.prop
      fun earlier => hfirst.not_prop_of_lt

/-- The verdicts are exactly the answers: there is one for each model, and no two. -/
theorem verdict_iff (hencoder : encoder.EncodedTo horizon)
    (hwidth : ∀ var ∈ model.trueVars, var < bound32) :
    ModelVerdict problem semantics encoder.index model horizon verdict ↔
      verdict = acceptModel encoder model horizon := by
  constructor
  · intro h
    exact (acceptModel_of_verdict hencoder hwidth h).symm
  · rintro rfl
    obtain ⟨found, hfound⟩ := exists_verdict hencoder model
    rwa [acceptModel_of_verdict hencoder hwidth hfound]

end Accepting

section Runs

variable {σ : Type} {backend : Backend σ} {config : PlannerConfig} {problem : Problem}
  {solver state next : σ}

/-- A plan that the planner returns is what was made of the model that the solver answered last. -/
theorem exists_model_of_found {plan : Plan} {horizon : Nat} {entries : List HorizonStats}
    (h : planWith backend config problem solver = (.ok ⟨.found plan horizon, entries⟩, next)) :
    ∃ (encoder : Encoder problem config.semantics) (model : Model) (goal : List Int) (state : σ),
      encoder.EncodedTo horizon ∧
      backend.solve goal config.timeoutMs? state = (.ok (.sat model), next) ∧
      acceptModel encoder model horizon = .ok plan := by
  cases hpossible : problem.goalPossiblyReachable with
  | false =>
      rw [planWith_eq_unreachable hpossible] at h
      cases h
  | true =>
  obtain ⟨last, encoder, stats, state, submitted, middle, result, entry, hcomes, hsubmit, hsolve, -,
    ⟨model, accepted, rfl, haccept, houtcome⟩ | ⟨-, houtcome⟩ | ⟨-, houtcome, -⟩⟩ :=
    exists_ending hpossible h
  · cases houtcome
    obtain ⟨delta, hencode⟩ := encodeStep_of_submitStep hsubmit
    obtain ⟨clauses, hencode⟩ := exists_encodeThrough hcomes.encoderBefore_eq hencode
    obtain ⟨⟨goal, hcall⟩, -⟩ := exists_of_solveHorizon_ok hsolve
    exact ⟨submitted, model, goal, middle, encodedTo_of_encodeThrough hencode, hcall, haccept⟩
  all_goals cases houtcome

theorem exists_readFrom_of_found {plan : Plan} {horizon : Nat} {entries : List HorizonStats}
    (h : planWith backend config problem solver = (.ok ⟨.found plan horizon, entries⟩, next)) :
    ∃ encoder : Encoder problem config.semantics, encoder.EncodedTo horizon ∧
      plan.ReadFrom encoder.index config.semantics horizon ∧ plan.achievesGoal problem = true := by
  obtain ⟨encoder, model, goal, state, hencoded, -, haccept⟩ := exists_model_of_found h
  obtain ⟨hdecode, hachieves⟩ := achievesGoal_of_acceptModel haccept
  exact ⟨encoder, hencoded, readFrom_of_decode hencoded.consistent hdecode, hachieves⟩

/-- A solver that keeps the books of the reference solver but always answers the same model. -/
def insistent (model : Model) : Backend ReferenceSolver :=
  { ReferenceSolver.backend .patient with solve := fun _ _ => pure (.sat model) }

theorem followsIntake_insistent (model : Model) :
    (insistent model).FollowsIntake ReferenceSolver.intake :=
  { ReferenceSolver.followsIntake_backend .patient with solve := fun _ _ _ => rfl }

end Runs

end BoundedPlanning
