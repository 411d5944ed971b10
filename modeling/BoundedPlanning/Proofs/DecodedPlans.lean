import BoundedPlanning.Proofs.EncodedPlans
import Mathlib.Algebra.BigOperators.Group.List.Lemmas

namespace BoundedPlanning

/-- Times ascend, and the actions of each time, of which there is at least one, never descend. -/
structure Plan.Ordered (plan : Plan) : Prop where
  chronological : plan.Chronological
  nonempty : ∀ step ∈ plan.steps, step.actions ≠ []
  sorted : ∀ step ∈ plan.steps, step.actions.Pairwise (· ≤ ·)

/-- The plan takes only actions that the index has at their times, below the horizon, and one at a
time if the semantics is sequential. -/
structure Plan.ReadFrom (plan : Plan) (index : VariableIndex) (semantics : StepSemantics)
    (horizon : Nat) : Prop where
  ordered : plan.Ordered
  time_lt : ∀ step ∈ plan.steps, step.time < horizon
  mem_entries : ∀ step ∈ plan.steps, ∀ id ∈ step.actions, (.action id, step.time) ∈ index.entries
  single : semantics = .sequential → ∀ step ∈ plan.steps, ∃ id, step.actions = [id]

theorem Plan.ReadFrom.lt_actionCount {problem : Problem} {semantics : StepSemantics}
    {encoder : Encoder problem semantics} {horizon : Nat} {plan : Plan}
    (h : plan.ReadFrom encoder.index semantics horizon) (hencoder : encoder.EncodedTo horizon)
    {step : PlanStep} (hstep : step ∈ plan.steps) {id : Nat} (hid : id ∈ step.actions) :
    id < problem.actionCount := by
  have hmem := h.mem_entries step hstep id hid
  rw [hencoder.entries_eq] at hmem
  exact (action_mem_layout.mp hmem).1

section Selected

variable {selected : List TimedAction}

theorem ordered_stepsOfSelected : (Plan.mk (stepsOfSelected selected)).Ordered := by
  have hactions : ∀ step ∈ stepsOfSelected selected,
      (∃ id, ⟨step.time, id⟩ ∈ selected) ∧
        ((selected.filter (·.time == step.time)).map TimedAction.action).mergeSort =
          step.actions :=
    fun step hstep => exists_mem_stepsOfSelected.mp ⟨step, hstep, rfl, rfl⟩
  refine ⟨chronological_stepsOfSelected, fun step hstep => ?_, fun step hstep => ?_⟩
  · obtain ⟨⟨id, hid⟩, hsteps⟩ := hactions step hstep
    rw [← hsteps]
    exact List.ne_nil_of_mem (mem_actions_iff.mpr hid)
  · rw [← (hactions step hstep).2]
    exact pairwise_le_mergeSort _

/-- Each selected action is one action of the plan. -/
theorem actionCount_stepsOfSelected :
    (Plan.mk (stepsOfSelected selected)).actionCount = selected.length := by
  let times := selected.map TimedAction.time
  have hcount : ∀ time, ((selected.filter (·.time == time)).map TimedAction.action).mergeSort.length =
      times.count time := by
    intro time
    rw [List.length_mergeSort, List.length_map, List.count, List.countP_map,
      List.countP_eq_length_filter]
    rfl
  have hperm : (ascending times).Perm times.dedup := by
    refine (List.perm_ext_iff_of_nodup ?_ (List.nodup_dedup times)).mpr fun time => ?_
    · exact (pairwise_ascending times).imp Nat.ne_of_lt
    · rw [mem_ascending, List.mem_dedup]
  calc (Plan.mk (stepsOfSelected selected)).actionCount
      = ((ascending times).map fun time => times.count time).sum := by
        simp only [Plan.actionCount, Plan.actions, stepsOfSelected, List.length_flatMap,
          List.map_map]
        exact congrArg List.sum (List.map_congr_left fun time _ => hcount time)
    _ = (times.dedup.map fun time => times.count time).sum := (hperm.map _).sum_eq
    _ = times.length := List.sum_map_count_dedup_eq_length times
    _ = selected.length := List.length_map _

end Selected

section Decoded

variable {index : VariableIndex} {semantics : StepSemantics} {model : Model} {horizon : Nat}
  {plan : Plan}

theorem exists_selected_of_decode (h : decode index semantics model horizon = .ok plan) :
    ∃ entities, index.trueEntities model = .ok entities ∧
      plan = ⟨stepsOfSelected (selectedActions entities horizon)⟩ ∧
      (semantics = .sequential → ∀ step ∈ plan.steps, step.actions.length ≤ 1) := by
  obtain ⟨entities, hentities, h⟩ := except_bind_eq_ok h
  refine ⟨entities, hentities, ?_⟩
  cases semantics with
  | parallel =>
      cases h
      exact ⟨rfl, fun hsequential => by cases hsequential⟩
  | sequential =>
      simp only at h
      split at h
      · cases h
      · rename_i hnone
        cases h
        refine ⟨rfl, fun _ step hstep => Nat.le_of_not_lt fun hlong => ?_⟩
        exact List.find?_eq_none.mp hnone step hstep (decide_eq_true hlong)

theorem readFrom_of_decode (hindex : index.Consistent)
    (h : decode index semantics model horizon = .ok plan) :
    plan.ReadFrom index semantics horizon := by
  obtain ⟨entities, hentities, rfl, hsingle⟩ := exists_selected_of_decode h
  have hselected : ∀ step ∈ stepsOfSelected (selectedActions entities horizon),
      ∀ id ∈ step.actions, (.action id, step.time) ∈ entities ∧ step.time < horizon := by
    intro step hstep id hid
    obtain ⟨-, hactions⟩ := exists_mem_stepsOfSelected.mp ⟨step, hstep, rfl, rfl⟩
    rw [← hactions, mem_actions_iff, mem_selectedActions] at hid
    exact hid
  have hordered := @ordered_stepsOfSelected (selectedActions entities horizon)
  refine ⟨hordered, fun step hstep => ?_, fun step hstep id hid => ?_,
    fun hsequential step hstep => ?_⟩
  · obtain ⟨id, hid⟩ := List.exists_mem_of_ne_nil _ (hordered.nonempty step hstep)
    exact (hselected step hstep id hid).2
  · obtain ⟨number, -, hnumber⟩ :=
      (mem_of_mapM_eq_ok hentities).mp (hselected step hstep id hid).1
    exact List.mem_of_getElem? ((VariableIndex.entityOf_eq_ok_iff hindex).mp hnumber).2
  · have hpos := List.length_pos_iff.mpr (hordered.nonempty step hstep)
    exact List.length_eq_one_iff.mp (Nat.le_antisymm (hsingle hsequential step hstep) hpos)

/-- A model with more true variables takes at least as many actions. -/
theorem actionCount_le_of_decode {smaller : Model} {other : Plan} {semantics' : StepSemantics}
    (hvars : ∀ var ∈ smaller.trueVars, var ∈ model.trueVars)
    (h : decode index semantics smaller horizon = .ok plan)
    (hother : decode index semantics' model horizon = .ok other) :
    plan.actionCount ≤ other.actionCount := by
  obtain ⟨entities, hentities, rfl, -⟩ := exists_selected_of_decode h
  obtain ⟨others, hothers, rfl, -⟩ := exists_selected_of_decode hother
  have hsublist : smaller.trueVars.Sublist model.trueVars :=
    List.sublist_of_subperm_of_pairwise
      (List.subperm_of_subset smaller.nodup_trueVars hvars)
      (smaller.pairwise_trueVars.imp Nat.le_of_lt) (model.pairwise_trueVars.imp Nat.le_of_lt)
  have hnumbers : smaller.trueNumbers.Sublist model.trueNumbers := hsublist.map _
  rw [actionCount_stepsOfSelected, actionCount_stepsOfSelected]
  exact ((sublist_of_mapM_eq_ok hnumbers hentities hothers).filterMap _).length_le

end Decoded

end BoundedPlanning
