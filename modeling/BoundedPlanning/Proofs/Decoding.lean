import BoundedPlanning.Encoding.Decoding
import BoundedPlanning.Proofs.Trajectory

namespace BoundedPlanning

theorem Model.mem_trueVars {model : Model} {var : Nat} :
    var ∈ model.trueVars ↔ model.value? var = some true := by
  simp only [Model.trueVars, List.mem_filter, List.mem_map, List.mem_range, beq_iff_eq]
  refine ⟨fun h => h.2, fun h => ⟨?_, h⟩⟩
  unfold Model.value? at h
  split at h
  · cases h
  · have hlt := (Array.getElem?_eq_some_iff.mp h).1
    exact ⟨var - 1, hlt, by omega⟩

theorem Model.le_maxVar_of_mem_trueVars {model : Model} {var : Nat}
    (h : var ∈ model.trueVars) : var ≤ model.maxVar := by
  obtain ⟨i, hi, rfl⟩ := List.mem_map.mp (List.mem_filter.mp h).1
  exact List.mem_range.mp hi

theorem Model.pos_of_mem_trueVars {model : Model} {var : Nat} (h : var ∈ model.trueVars) :
    0 < var := by
  obtain ⟨i, -, rfl⟩ := List.mem_map.mp (List.mem_filter.mp h).1
  exact Nat.succ_pos i

theorem Model.trueVars_le {model : Model} {bound : Nat} (h : model.maxVar = bound) :
    ∀ var ∈ model.trueVars, var ≤ bound :=
  fun _ hvar => h ▸ le_maxVar_of_mem_trueVars hvar

theorem Model.pairwise_trueVars (model : Model) : model.trueVars.Pairwise (· < ·) := by
  refine List.Pairwise.filter _ ?_
  rw [List.pairwise_map]
  exact List.pairwise_lt_range.imp fun h => Nat.succ_lt_succ h

theorem Model.nodup_trueVars (model : Model) : model.trueVars.Nodup :=
  model.pairwise_trueVars.imp Nat.ne_of_lt

theorem Model.trueNumbers_eq {model : Model} (h : ∀ var ∈ model.trueVars, var < bound32) :
    model.trueNumbers = model.trueVars :=
  (List.map_congr_left fun var hvar => Nat.mod_eq_of_lt (h var hvar)).trans (List.map_id _)

theorem maxVariable_lt : maxVariable < bound32 := by
  unfold maxVariable bound32
  omega

namespace VariableIndex

variable {index : VariableIndex} {model : Model} {entities : List (Entity × Nat)}

/-- Variables that were handed out have numbers of their own. -/
theorem trueNumbers_of_known (hindex : index.Consistent)
    (hknown : ∀ var ∈ model.trueVars, var ≤ index.size) : model.trueNumbers = model.trueVars := by
  apply Model.trueNumbers_eq
  intro var hvar
  have hsize := (hknown var hvar).trans hindex.size_le
  exact hsize.trans_lt maxVariable_lt

theorem exists_trueEntities (hindex : index.Consistent)
    (hknown : ∀ var ∈ model.trueVars, var ≤ index.size) :
    ∃ entities, index.trueEntities model = .ok entities := by
  rw [trueEntities, trueNumbers_of_known hindex hknown]
  refine exists_mapM_eq_ok fun var hvar => ?_
  exact (exists_entityOf_iff hindex).mpr ⟨Model.pos_of_mem_trueVars hvar, hknown var hvar⟩

theorem mem_trueEntities (hindex : index.Consistent)
    (hknown : ∀ var ∈ model.trueVars, var ≤ index.size)
    (h : index.trueEntities model = .ok entities) {entity : Entity} {step : Nat} :
    (entity, step) ∈ entities ↔ index.valueOf model.value? entity step = some true := by
  rw [trueEntities, trueNumbers_of_known hindex hknown] at h
  rw [mem_of_mapM_eq_ok h, valueOf_eq_some_iff]
  refine exists_congr fun var => ?_
  rw [Model.mem_trueVars, entityOf_eq_ok_iff_get? hindex, and_comm]

theorem nodup_trueEntities (hindex : index.Consistent)
    (hknown : ∀ var ∈ model.trueVars, var ≤ index.size)
    (h : index.trueEntities model = .ok entities) : entities.Nodup := by
  rw [trueEntities, trueNumbers_of_known hindex hknown] at h
  have hall := except_mapM_eq_ok_iff.mp h
  refine (List.rel_nodup ⟨?_, ?_⟩ hall).mp model.nodup_trueVars
  · rintro var other ⟨entity, step⟩ hvar hother
    rw [entityOf_eq_ok_iff_get? hindex] at hvar hother
    rw [hvar, Option.some.injEq] at hother
    exact hother
  · intro var entry other hentry hother
    rw [hentry] at hother
    exact Except.ok.inj hother

end VariableIndex

section Selection

variable {entities : List (Entity × Nat)} {selected : List TimedAction} {horizon : Nat}

theorem mem_selectedActions {time id : Nat} :
    (⟨time, id⟩ : TimedAction) ∈ selectedActions entities horizon ↔
      (.action id, time) ∈ entities ∧ time < horizon := by
  rw [selectedActions, List.mem_filterMap]
  constructor
  · rintro ⟨⟨entity, step⟩, hmem, hselected⟩
    cases entity with
    | action other =>
        simp only at hselected
        split at hselected
        · cases hselected
          exact ⟨hmem, ‹_›⟩
        · cases hselected
    | fact fact => cases hselected
    | aux n => cases hselected
  · rintro ⟨hmem, htime⟩
    exact ⟨(.action id, time), hmem, by simp [htime]⟩

theorem nodup_selectedActions (h : entities.Nodup) :
    (selectedActions entities horizon).Nodup := by
  refine h.filterMap ?_
  rintro ⟨entity, step⟩ ⟨other, otherStep⟩ selected hfirst hsecond
  cases entity with
  | action id =>
      cases other with
      | action otherId =>
          simp only [Option.mem_def] at hfirst hsecond
          split at hfirst
          · split at hsecond
            · cases hfirst
              cases hsecond
              rfl
            · cases hsecond
          · cases hfirst
      | fact fact => cases hsecond
      | aux n => cases hsecond
  | fact fact => cases hfirst
  | aux n => cases hfirst

theorem chronological_stepsOfSelected : (Plan.mk (stepsOfSelected selected)).Chronological :=
  List.pairwise_map.mpr (pairwise_ascending _)

theorem exists_mem_stepsOfSelected {time : Nat} {actions : List Nat} :
    (∃ step ∈ stepsOfSelected selected, step.time = time ∧ step.actions = actions) ↔
      (∃ id, ⟨time, id⟩ ∈ selected) ∧
        ((selected.filter (·.time == time)).map TimedAction.action).mergeSort = actions := by
  simp only [stepsOfSelected, List.mem_map, mem_ascending]
  constructor
  · rintro ⟨_, ⟨_, ⟨⟨found, id⟩, hmem, rfl⟩, rfl⟩, rfl, rfl⟩
    exact ⟨⟨id, hmem⟩, rfl⟩
  · rintro ⟨⟨id, hmem⟩, rfl⟩
    exact ⟨_, ⟨time, ⟨⟨time, id⟩, hmem, rfl⟩, rfl⟩, rfl, rfl⟩

theorem mem_actions_iff {time id : Nat} :
    id ∈ ((selected.filter (·.time == time)).map TimedAction.action).mergeSort ↔
      (⟨time, id⟩ : TimedAction) ∈ selected := by
  rw [List.mem_mergeSort, List.mem_map]
  constructor
  · rintro ⟨⟨found, other⟩, hmem, rfl⟩
    obtain ⟨hmem, htime⟩ := List.mem_filter.mp hmem
    rwa [← eq_of_beq htime]
  · intro hmem
    exact ⟨⟨time, id⟩, List.mem_filter.mpr ⟨hmem, beq_self_eq_true time⟩, rfl⟩

theorem pairwise_actions (h : selected.Nodup) (time : Nat) :
    ((selected.filter (·.time == time)).map TimedAction.action).mergeSort.Pairwise (· < ·) := by
  refine pairwise_lt_mergeSort (List.Nodup.map_on ?_ (h.filter _))
  rintro ⟨first, id⟩ hfirst ⟨second, other⟩ hsecond rfl
  have hfirstTime : first = time := eq_of_beq (List.mem_filter.mp hfirst).2
  have hsecondTime : second = time := eq_of_beq (List.mem_filter.mp hsecond).2
  rw [hfirstTime, hsecondTime]

end Selection

/-- The form in which plans are decoded from models whose variables have numbers of their own: times
ascend, and so do the actions of each time, of which there is at least one. -/
structure Plan.Canonical (plan : Plan) : Prop where
  chronological : plan.Chronological
  nonempty : ∀ step ∈ plan.steps, step.actions ≠ []
  ascending : ∀ step ∈ plan.steps, step.actions.Pairwise (· < ·)

namespace Plan

theorem Canonical.pairwise_actionsAt {plan : Plan} (h : plan.Canonical) (time : Nat) :
    (plan.actionsAt time).Pairwise (· < ·) := by
  unfold actionsAt
  cases hfind : plan.steps.find? fun step => step.time == time with
  | none => exact List.Pairwise.nil
  | some step => exact h.ascending step (List.mem_of_find?_eq_some hfind)

theorem Canonical.mem_of_actionsAt_iff {plan other : Plan} (hplan : plan.Canonical)
    (hother : other.Canonical)
    (h : ∀ time id, id ∈ plan.actionsAt time ↔ id ∈ other.actionsAt time) {step : PlanStep}
    (hstep : step ∈ plan.steps) : step ∈ other.steps := by
  obtain ⟨id, hid⟩ := List.exists_mem_of_ne_nil _ (hplan.nonempty step hstep)
  rw [← actionsAt_of_mem hplan.chronological hstep, h, mem_actionsAt hother.chronological] at hid
  obtain ⟨found, hfound, htime, -⟩ := hid
  have hactions : found.actions = step.actions := by
    refine eq_of_pairwise_key_lt (hother.ascending found hfound) (hplan.ascending step hstep) ?_
    intro id
    rw [← actionsAt_of_mem hplan.chronological hstep,
      ← actionsAt_of_mem hother.chronological hfound, htime]
    exact (h step.time id).symm
  have hsame : found = step := by
    cases found
    cases step
    simp only [PlanStep.mk.injEq]
    exact ⟨htime, hactions⟩
  rwa [← hsame]

/-- A plan in canonical form is determined by which actions it takes at each time. -/
theorem Canonical.eq_of_actionsAt_iff {plan other : Plan} (hplan : plan.Canonical)
    (hother : other.Canonical)
    (h : ∀ time id, id ∈ plan.actionsAt time ↔ id ∈ other.actionsAt time) : plan = other := by
  cases plan with
  | mk steps =>
      cases other with
      | mk others =>
          congr 1
          refine eq_of_pairwise_key_lt hplan.chronological hother.chronological fun step => ?_
          exact ⟨hplan.mem_of_actionsAt_iff hother h,
            hother.mem_of_actionsAt_iff hplan fun time id => (h time id).symm⟩

end Plan

section Decode

variable {selected : List TimedAction}

theorem canonical_stepsOfSelected (h : selected.Nodup) :
    (Plan.mk (stepsOfSelected selected)).Canonical := by
  have hactions : ∀ step ∈ stepsOfSelected selected,
      (∃ id, ⟨step.time, id⟩ ∈ selected) ∧
        ((selected.filter (·.time == step.time)).map TimedAction.action).mergeSort =
          step.actions :=
    fun step hstep => exists_mem_stepsOfSelected.mp ⟨step, hstep, rfl, rfl⟩
  refine ⟨chronological_stepsOfSelected, fun step hstep => ?_, fun step hstep => ?_⟩
  · obtain ⟨⟨id, hid⟩, hsteps⟩ := hactions step hstep
    rw [← hsteps]
    exact List.ne_nil_of_mem (mem_actions_iff.mpr hid)
  · rw [← (hactions step hstep).2]
    exact pairwise_actions h step.time

theorem mem_actionsAt_stepsOfSelected {time id : Nat} :
    id ∈ (Plan.mk (stepsOfSelected selected)).actionsAt time ↔
      (⟨time, id⟩ : TimedAction) ∈ selected := by
  rw [Plan.mem_actionsAt chronological_stepsOfSelected]
  constructor
  · rintro ⟨step, hstep, rfl, hid⟩
    obtain ⟨-, hactions⟩ := exists_mem_stepsOfSelected.mp ⟨step, hstep, rfl, rfl⟩
    rwa [← hactions, mem_actions_iff] at hid
  · intro hmem
    obtain ⟨step, hstep, htime, hactions⟩ := exists_mem_stepsOfSelected.mpr ⟨⟨id, hmem⟩, rfl⟩
    refine ⟨step, hstep, htime, ?_⟩
    rwa [hactions, mem_actions_iff]

/-- The true variables of a model that are action variables below the horizon make a plan. -/
theorem exists_selectedSteps {index : VariableIndex} (hindex : index.Consistent) {model : Model}
    (hknown : ∀ var ∈ model.trueVars, var ≤ index.size) (horizon : Nat) :
    ∃ entities, index.trueEntities model = .ok entities ∧
      (Plan.mk (stepsOfSelected (selectedActions entities horizon))).Canonical ∧
      ∀ time id,
        id ∈ (Plan.mk (stepsOfSelected (selectedActions entities horizon))).actionsAt time ↔
          time < horizon ∧ index.valueOf model.value? (.action id) time = some true := by
  obtain ⟨entities, hentities⟩ := VariableIndex.exists_trueEntities hindex hknown
  refine ⟨entities, hentities, ?_, fun time id => ?_⟩
  · exact canonical_stepsOfSelected (nodup_selectedActions
      (VariableIndex.nodup_trueEntities hindex hknown hentities))
  · rw [mem_actionsAt_stepsOfSelected, mem_selectedActions,
      VariableIndex.mem_trueEntities hindex hknown hentities, and_comm]

/-- Decoding a model whose true variables are all known, with at most one action at a time if the
semantics is sequential. -/
theorem exists_decode_eq_ok {index : VariableIndex} (hindex : index.Consistent) {model : Model}
    (hknown : ∀ var ∈ model.trueVars, var ≤ index.size) {semantics : StepSemantics} {horizon : Nat}
    (hone : semantics = .sequential → ∀ time < horizon, ∀ i j,
      index.valueOf model.value? (.action i) time = some true →
        index.valueOf model.value? (.action j) time = some true → i = j) :
    ∃ plan, decode index semantics model horizon = .ok plan ∧ plan.Canonical ∧
      ∀ time id, id ∈ plan.actionsAt time ↔
        time < horizon ∧ index.valueOf model.value? (.action id) time = some true := by
  obtain ⟨entities, hentities, hcanonical, hactions⟩ := exists_selectedSteps hindex hknown horizon
  let plan : Plan := ⟨stepsOfSelected (selectedActions entities horizon)⟩
  refine ⟨plan, ?_, hcanonical, hactions⟩
  cases semantics with
  | parallel =>
      simp only [decode, hentities]
      rfl
  | sequential =>
      have hsingle : plan.steps.find? (fun step => decide (1 < step.actions.length)) = none := by
        rw [List.find?_eq_none]
        intro step hstep hlong
        have htwo := of_decide_eq_true hlong
        have hascending := List.pairwise_iff_getElem.mp (hcanonical.ascending step hstep) 0 1
          (by omega) htwo Nat.zero_lt_one
        have hvalue : ∀ i, (hi : i < step.actions.length) → step.time < horizon ∧
            index.valueOf model.value? (.action step.actions[i]) step.time = some true := by
          intro i hi
          rw [← hactions, Plan.actionsAt_of_mem hcanonical.chronological hstep]
          exact List.getElem_mem hi
        have heq := hone rfl step.time (hvalue 0 (by omega)).1 _ _ (hvalue 0 (by omega)).2
          (hvalue 1 htwo).2
        omega
      simp only [decode, hentities, bind, Except.bind]
      rw [hsingle]
      rfl

/-- Decoding fails only on a variable that stands for nothing, or on several actions in a step. -/
theorem error_of_decode {index : VariableIndex} {semantics : StepSemantics} {model : Model}
    {horizon : Nat} {error : EncodingError}
    (h : decode index semantics model horizon = .error error) :
    (∃ var, error = .unknownVariable var) ∨
      ∃ step actions, error = .multipleActionsPerStep step actions := by
  unfold decode at h
  cases hentities : index.trueEntities model with
  | error other =>
      rw [hentities] at h
      cases h
      obtain ⟨var, -, hvar⟩ := exists_of_mapM_eq_error hentities
      exact Or.inl ⟨var, VariableIndex.error_of_entityOf hvar⟩
  | ok entities =>
      rw [hentities] at h
      cases semantics with
      | parallel => cases h
      | sequential =>
          simp only [bind, Except.bind] at h
          split at h
          · exact Or.inr ⟨_, _, (Except.error.inj h).symm⟩
          · cases h

end Decode

end BoundedPlanning
