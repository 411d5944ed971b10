import BoundedPlanning.Plan
import BoundedPlanning.Proofs.Ascending
import BoundedPlanning.Proofs.Except

namespace BoundedPlanning

theorem Action.isApplicable_iff {action : Action} {state : State} :
    action.isApplicable state = true ↔
      (∀ fact ∈ action.pre, state.holds fact = true) ∧
        ∀ fact ∈ action.preNeg, state.holds fact = false := by
  simp [Action.isApplicable]

namespace PlanStep

variable {problem : Problem} {state next : State} {step : PlanStep}

theorem size_applyAll (actions : List Action) (state : State) :
    (applyAll actions state).size = state.size := by
  simp [applyAll]

/-- Adding wins over deleting, also between different actions of a step. -/
theorem holds_applyAll {actions : List Action} {fact : Nat} :
    (applyAll actions state).holds fact = true ↔
      fact < state.size ∧ ((∃ action ∈ actions, fact ∈ action.add) ∨
        state.holds fact = true ∧ ∀ action ∈ actions, fact ∉ action.del) := by
  simp only [applyAll, State.holds_setAll, State.size_setAll, List.mem_flatMap]
  by_cases hsize : fact < state.size
  · by_cases hadd : ∃ action ∈ actions, fact ∈ action.add
    · simp [hadd, hsize]
    · by_cases hdel : ∃ action ∈ actions, fact ∈ action.del
      · simp only [hadd, hdel, hsize, and_true, if_true, if_false, false_or, true_and,
          Bool.false_eq_true, false_iff, not_and]
        obtain ⟨action, haction, hfact⟩ := hdel
        exact fun _ h => h action haction hfact
      · simp only [hadd, hdel, hsize, false_and, if_false, false_or, true_and, iff_self_and]
        exact fun _ action haction hfact => hdel ⟨action, haction, hfact⟩
  · simp [hsize, State.holds_eq_false_of_size_le (Nat.le_of_not_lt hsize)]

theorem applicableActions_eq_ok_iff {actions : List Action} :
    step.applicableActions problem state = .ok actions ↔
      (∀ id ∈ step.actions, ∃ action, problem.action? id = some action ∧
        action.isApplicable state = true) ∧
      step.actions.filterMap problem.action? = actions := by
  rw [applicableActions, except_mapM_eq_ok_iff]
  induction step.actions generalizing actions with
  | nil =>
      rw [List.forall₂_nil_left_iff]
      exact ⟨fun h => ⟨by simp, h.symm⟩, fun h => h.2.symm⟩
  | cons id rest ih =>
      rw [List.forall₂_cons_left_iff, List.forall_mem_cons]
      constructor
      · rintro ⟨action, others, hone, hrest, rfl⟩
        obtain ⟨hall, hothers⟩ := ih.mp hrest
        split at hone
        · cases hone
        · rename_i found hget
          split at hone
          · rename_i happlicable
            cases hone
            exact ⟨⟨⟨action, hget, happlicable⟩, hall⟩, by rw [List.filterMap_cons, hget, hothers]⟩
          · cases hone
      · rintro ⟨⟨⟨action, hget, happlicable⟩, hall⟩, rfl⟩
        refine ⟨action, _, ?_, ih.mpr ⟨hall, rfl⟩, ?_⟩
        · simp [hget, happlicable]
        · rw [List.filterMap_cons, hget]

theorem execute_eq_ok_iff :
    step.execute problem state = .ok next ↔
      (∀ id ∈ step.actions, ∃ action, problem.action? id = some action ∧
        action.isApplicable state = true) ∧
      applyAll (step.actions.filterMap problem.action?) state = next := by
  unfold execute
  constructor
  · intro h
    cases hactions : step.applicableActions problem state with
    | error error =>
        rw [hactions] at h
        cases h
    | ok actions =>
        rw [hactions] at h
        obtain ⟨hall, rfl⟩ := applicableActions_eq_ok_iff.mp hactions
        exact ⟨hall, Except.ok.inj h⟩
  · rintro ⟨hall, rfl⟩
    rw [applicableActions_eq_ok_iff.mpr ⟨hall, rfl⟩]
    rfl

theorem size_of_execute (h : step.execute problem state = .ok next) : next.size = state.size := by
  obtain ⟨-, rfl⟩ := execute_eq_ok_iff.mp h
  exact size_applyAll _ _

end PlanStep

namespace Plan

variable {problem : Problem}

theorem executeFrom_append {state : State} {first second : List PlanStep} :
    executeFrom problem state (first ++ second) =
      match executeFrom problem state first with
      | .error error => .error error
      | .ok middle => executeFrom problem middle second := by
  induction first generalizing state with
  | nil => rfl
  | cons step rest ih =>
      simp only [List.cons_append, executeFrom]
      cases step.execute problem state with
      | error error => rfl
      | ok next => exact ih

/-- What every step keeps holds after all of them. -/
theorem executeFrom_induction {P : State → Prop}
    (hstep : ∀ (state next : State) (step : PlanStep), P state →
      step.execute problem state = .ok next → P next)
    {state final : State} {steps : List PlanStep}
    (h : executeFrom problem state steps = .ok final) (hstate : P state) : P final := by
  induction steps generalizing state with
  | nil =>
      cases h
      exact hstate
  | cons step rest ih =>
      rw [executeFrom] at h
      cases hnext : step.execute problem state with
      | error error => simp [hnext] at h
      | ok next =>
          rw [hnext] at h
          exact ih h (hstep state next step hstate hnext)

theorem size_executeFrom {state next : State} {steps : List PlanStep}
    (h : executeFrom problem state steps = .ok next) : next.size = state.size :=
  executeFrom_induction (P := fun reached => reached.size = state.size)
    (fun _ _ _ hsize hstep => (PlanStep.size_of_execute hstep).trans hsize) h rfl

theorem exists_executeFrom_of_prefix {state final : State} {first steps : List PlanStep}
    (h : executeFrom problem state steps = .ok final) (hfirst : first <+: steps) :
    ∃ middle, executeFrom problem state first = .ok middle := by
  obtain ⟨rest, rfl⟩ := hfirst
  rw [executeFrom_append] at h
  cases hmiddle : executeFrom problem state first with
  | error error => simp [hmiddle] at h
  | ok middle => exact ⟨middle, rfl⟩

/-- The steps are in the order of their times, which all differ. -/
def Chronological (plan : Plan) : Prop := plan.steps.Pairwise fun a b => a.time < b.time

def stepsBefore (plan : Plan) (time : Nat) : List PlanStep :=
  plan.steps.filter fun step => step.time < time

def actionsAt (plan : Plan) (time : Nat) : List Nat :=
  ((plan.steps.find? fun step => step.time == time).map PlanStep.actions).getD []

def stateAt (plan : Plan) (problem : Problem) (time : Nat) : Except SimulationError State :=
  executeFrom problem problem.init (plan.stepsBefore time)

theorem filter_before_succ {steps : List PlanStep} {time : Nat}
    (h : steps.Pairwise fun a b => a.time < b.time) :
    (steps.filter fun step => step.time < time + 1) =
      (steps.filter fun step => step.time < time) ++
        (steps.find? fun step => step.time == time).toList := by
  induction steps with
  | nil => rfl
  | cons step rest ih =>
      obtain ⟨hstep, hrest⟩ := List.pairwise_cons.mp h
      rcases Nat.lt_or_ge step.time time with hlt | hge
      · rw [List.filter_cons_of_pos (by simp; omega), List.filter_cons_of_pos (by simpa using hlt),
          List.find?_cons_of_neg (by simp; omega), ih hrest, List.cons_append]
      · have hlater : ∀ bound, bound ≤ time + 1 →
            (rest.filter fun other => other.time < bound) = [] := by
          intro bound hbound
          rw [List.filter_eq_nil_iff]
          intro other hother
          have := hstep other hother
          simp
          omega
        rw [List.filter_cons_of_neg (a := step) (p := fun step => decide (step.time < time))
          (by simpa using hge), hlater time (by omega), List.nil_append]
        by_cases heq : step.time = time
        · rw [List.filter_cons_of_pos (by simp [heq]), List.find?_cons_of_pos (by simp [heq]),
            hlater _ (Nat.le_refl _)]
          rfl
        · rw [List.filter_cons_of_neg (by simp; omega), List.find?_cons_of_neg (by simp [heq]),
            hlater _ (Nat.le_refl _), List.find?_eq_none.mpr]
          · rfl
          · intro other hother
            have := hstep other hother
            simp
            omega

variable {plan : Plan}

theorem stateAt_zero : plan.stateAt problem 0 = .ok problem.init := by
  simp [stateAt, stepsBefore, executeFrom]

theorem size_stateAt {time : Nat} {state : State} (h : plan.stateAt problem time = .ok state) :
    state.size = problem.factCount :=
  (size_executeFrom h).trans problem.init_size

/-- From one time to the next, the actions taken at the earlier one are executed. -/
theorem stateAt_succ (h : plan.Chronological) {time : Nat} :
    plan.stateAt problem (time + 1) =
      match plan.stateAt problem time with
      | .error error => .error error
      | .ok state => PlanStep.execute problem state ⟨time, plan.actionsAt time⟩ := by
  rw [stateAt, stepsBefore, filter_before_succ h, executeFrom_append, ← stepsBefore, ← stateAt]
  cases plan.stateAt problem time with
  | error error => rfl
  | ok state =>
      unfold actionsAt
      cases hfind : plan.steps.find? fun step => step.time == time with
      | none =>
          have hidle : PlanStep.execute problem state ⟨time, []⟩ = .ok state :=
            PlanStep.execute_eq_ok_iff.mpr ⟨by simp, rfl⟩
          simp [executeFrom, hidle]
      | some step =>
          have htime : step.time = time := by simpa using List.find?_some hfind
          subst htime
          simp only [Option.toList_some, Option.map_some, Option.getD_some, executeFrom]
          cases step.execute problem state <;> rfl

theorem simulate_eq_stateAt {last : Nat} (h : ∀ step ∈ plan.steps, step.time < last) :
    plan.simulate problem = plan.stateAt problem last := by
  rw [simulate, stateAt, stepsBefore, List.filter_eq_self.mpr (by simpa using h)]

theorem exists_stateAt_of_le (h : plan.Chronological) {time last : Nat} {final : State}
    (htime : time ≤ last) (hfinal : plan.stateAt problem last = .ok final) :
    ∃ state, plan.stateAt problem time = .ok state := by
  induction htime generalizing final with
  | refl => exact ⟨final, hfinal⟩
  | @step last _ ih =>
      rw [stateAt_succ h] at hfinal
      cases hstate : plan.stateAt problem last with
      | error error => simp [hstate] at hfinal
      | ok state => exact ih hstate

theorem eq_of_time_eq (h : plan.Chronological) {step other : PlanStep} (hstep : step ∈ plan.steps)
    (hother : other ∈ plan.steps) (htime : step.time = other.time) : step = other :=
  eq_of_key_eq h hstep hother htime

theorem actionsAt_of_mem (h : plan.Chronological) {step : PlanStep} (hstep : step ∈ plan.steps) :
    plan.actionsAt step.time = step.actions := by
  unfold actionsAt
  cases hfind : plan.steps.find? fun other => other.time == step.time with
  | none =>
      have := List.find?_eq_none.mp hfind step hstep
      simp at this
  | some other =>
      have htime : other.time = step.time := by simpa using List.find?_some hfind
      rw [eq_of_time_eq h (List.mem_of_find?_eq_some hfind) hstep htime]
      rfl

theorem mem_actionsAt (h : plan.Chronological) {time id : Nat} :
    id ∈ plan.actionsAt time ↔ ∃ step ∈ plan.steps, step.time = time ∧ id ∈ step.actions := by
  constructor
  · intro hid
    unfold actionsAt at hid
    cases hfind : plan.steps.find? fun step => step.time == time with
    | none => simp [hfind] at hid
    | some step =>
        refine ⟨step, List.mem_of_find?_eq_some hfind, by simpa using List.find?_some hfind, ?_⟩
        simpa [hfind] using hid
  · rintro ⟨step, hstep, rfl, hid⟩
    rwa [actionsAt_of_mem h hstep]

end Plan

end BoundedPlanning
