import BoundedPlanning.Proofs.Execution
import BoundedPlanning.Proofs.Transition

namespace BoundedPlanning

/-- The action is the lowest one among those of a step that is not applicable in the state. -/
structure LowestViolation (problem : Problem) (state : State) (actions : List Nat) (id : Nat)
    (action : Action) : Prop where
  mem : id ∈ actions
  action_eq : problem.action? id = some action
  violated : action.isApplicable state = false
  lowest : ∀ lower ∈ actions, lower < id →
    ∃ other, problem.action? lower = some other ∧ other.isApplicable state = true

namespace PlanStep

variable {problem : Problem} {state : State} {step : PlanStep} {error : SimulationError}

theorem execute_eq_error_iff (hascending : step.actions.Pairwise (· < ·))
    (hknown : ∀ id ∈ step.actions, id < problem.actionCount) :
    step.execute problem state = .error error ↔
      ∃ id action, LowestViolation problem state step.actions id action ∧
        error = .preconditionViolated step.time action.name := by
  have hexecute : step.execute problem state = .error error ↔
      step.applicableActions problem state = .error error := by
    rw [execute]
    cases step.applicableActions problem state <;> simp [Except.map]
  rw [hexecute, applicableActions, except_mapM_eq_error_iff]
  constructor
  · rintro ⟨before, id, after, hactions, hbefore, herror⟩
    have hid : id ∈ step.actions := by simp [hactions]
    obtain ⟨action, haction⟩ := Problem.exists_action? (hknown id hid)
    simp only [haction] at herror
    split at herror
    · cases herror
    · rename_i hviolated
      refine ⟨id, action, ⟨hid, haction, by simpa using hviolated, ?_⟩,
        (Except.error.inj herror).symm⟩
      intro lower hlower hlt
      -- The actions ascend, so a lower one stands before.
      rw [hactions] at hlower hascending
      have hmem : lower ∈ before := by
        rcases List.mem_append.mp hlower with hmem | hmem
        · exact hmem
        · have hfrom := (List.pairwise_append.mp hascending).2.1
          rcases List.mem_cons.mp hmem with rfl | hmem
          · exact absurd hlt (Nat.lt_irrefl _)
          · exact absurd (List.rel_of_pairwise_cons hfrom hmem) (Nat.lt_asymm hlt)
      obtain ⟨result, hresult⟩ := hbefore lower hmem
      split at hresult
      · cases hresult
      · rename_i other hother
        split at hresult
        · rename_i happlicable
          exact ⟨other, hother, happlicable⟩
        · cases hresult
  · rintro ⟨id, action, ⟨hid, haction, hviolated, hlowest⟩, rfl⟩
    obtain ⟨before, after, hactions⟩ := List.append_of_mem hid
    refine ⟨before, id, after, hactions, fun lower hlower => ?_, by simp [haction, hviolated]⟩
    rw [hactions] at hascending
    have hlt : lower < id :=
      (List.pairwise_append.mp hascending).2.2 lower hlower id List.mem_cons_self
    obtain ⟨other, hother, happlicable⟩ := hlowest lower (by simp [hactions, hlower]) hlt
    exact ⟨other, by simp [hother, happlicable]⟩

end PlanStep

namespace Plan

variable {plan : Plan} {problem : Problem} {error : SimulationError}

/-- The steps before the time execute, and at the time the preconditions of the action are the
first that do not hold. -/
def FirstViolation (plan : Plan) (problem : Problem) (time : Nat) (action : Action) : Prop :=
  ∃ state id, plan.stateAt problem time = .ok state ∧
    LowestViolation problem state (plan.actionsAt time) id action

theorem stateAt_eq_error_iff (hplan : plan.Chronological)
    (hascending : ∀ time, (plan.actionsAt time).Pairwise (· < ·))
    (hknown : ∀ time, ∀ id ∈ plan.actionsAt time, id < problem.actionCount) {last : Nat} :
    plan.stateAt problem last = .error error ↔
      ∃ time < last, ∃ action, plan.FirstViolation problem time action ∧
        error = .preconditionViolated time action.name := by
  induction last with
  | zero => simp [stateAt_zero]
  | succ last ih =>
      rw [stateAt_succ hplan]
      cases hstate : plan.stateAt problem last with
      | error other =>
          have hnone : ∀ action, ¬ plan.FirstViolation problem last action := by
            rintro action ⟨state, id, hother, -⟩
            rw [hstate] at hother
            cases hother
          rw [hstate] at ih
          rw [ih]
          constructor
          · rintro ⟨time, htime, hviolation⟩
            exact ⟨time, by omega, hviolation⟩
          · rintro ⟨time, htime, action, hviolation, herror⟩
            have hne : time ≠ last := by
              rintro rfl
              exact hnone action hviolation
            exact ⟨time, by omega, action, hviolation, herror⟩
      | ok state =>
          have hexecute :
              PlanStep.execute problem state ⟨last, plan.actionsAt last⟩ = .error error ↔
                ∃ id action, LowestViolation problem state (plan.actionsAt last) id action ∧
                  error = .preconditionViolated last action.name :=
            PlanStep.execute_eq_error_iff (hascending last) (hknown last)
          rw [hexecute]
          constructor
          · rintro ⟨id, action, hviolation, herror⟩
            exact ⟨last, Nat.lt_succ_self last, action, ⟨state, id, hstate, hviolation⟩, herror⟩
          · rintro ⟨time, htime, action, ⟨earlier, id, hearlier, hviolation⟩, herror⟩
            -- All times before the last one executed.
            have heq : time = last := by
              by_contra hne
              have hfailed := ih.mpr
                ⟨time, by omega, action, ⟨earlier, id, hearlier, hviolation⟩, herror⟩
              rw [hstate] at hfailed
              cases hfailed
            subst heq
            rw [hstate] at hearlier
            cases hearlier
            exact ⟨id, action, hviolation, herror⟩

end Plan

end BoundedPlanning
