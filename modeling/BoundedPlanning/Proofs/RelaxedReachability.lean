import BoundedPlanning.Proofs.EncodingCorrectness
import BoundedPlanning.Proofs.Horizons
import BoundedPlanning.Proofs.PlanningRounds

namespace BoundedPlanning

def State.Within (state reached : State) : Prop :=
  ∀ fact, state.holds fact = true → reached.holds fact = true

/-- The adds of the action are reached. -/
def State.Gained (reached : State) (action : Action) : Prop :=
  ∀ fact ∈ action.add, fact < reached.size → reached.holds fact = true

/-- An action whose positive preconditions are reached gains nothing that is not reached. -/
def State.ClosedUnder (reached : State) (action : Action) : Prop :=
  (∀ fact ∈ action.pre, reached.holds fact = true) → reached.Gained action

namespace State

variable {state reached next : State} {action : Action}

theorem Within.refl (state : State) : state.Within state := fun _ h => h

theorem Within.trans (h : state.Within reached) (hnext : reached.Within next) :
    state.Within next :=
  fun fact hfact => hnext fact (h fact hfact)

theorem Gained.mono (h : reached.Gained action) (hwithin : reached.Within next)
    (hsize : next.size = reached.size) : next.Gained action :=
  fun fact hfact hlt => hwithin fact (h fact hfact (hsize ▸ hlt))

theorem within_setAll_true (facts : List Nat) (state : State) :
    state.Within (state.setAll facts true) := by
  intro fact hfact
  rw [holds_setAll]
  split
  · rfl
  · exact hfact

theorem gained_setAll_true (action : Action) (state : State) :
    (state.setAll action.add true).Gained action := by
  intro fact hfact hlt
  rw [size_setAll] at hlt
  rw [holds_setAll, if_pos ⟨hfact, hlt⟩]

theorem setAll_true_eq_self {facts : List Nat}
    (h : ∀ fact ∈ facts, state.holds fact = true) : state.setAll facts true = state := by
  refine ext_holds (size_setAll _ _ _) fun fact _ => ?_
  rw [holds_setAll]
  split
  · rename_i hfact
    exact (h fact hfact.1).symm
  · rfl

end State

section Passes

variable {actions waiting : List Action} {reached : State} {action : Action}

@[simp] theorem size_reached_relaxedPass (actions : List Action) (reached : State) :
    (relaxedPass actions reached).reached.size = reached.size := by
  induction actions generalizing reached with
  | nil => rfl
  | cons action rest ih =>
      rw [relaxedPass]
      split
      · exact (ih _).trans (State.size_setAll _ _ _)
      · exact ih _

theorem within_relaxedPass (actions : List Action) (reached : State) :
    reached.Within (relaxedPass actions reached).reached := by
  induction actions generalizing reached with
  | nil => exact State.Within.refl _
  | cons action rest ih =>
      rw [relaxedPass]
      split
      · exact (State.within_setAll_true action.add reached).trans (ih _)
      · exact ih _

theorem gained_or_waiting_of_relaxedPass (h : action ∈ actions) :
    (relaxedPass actions reached).reached.Gained action ∨
      action ∈ (relaxedPass actions reached).waiting := by
  induction actions generalizing reached with
  | nil => cases h
  | cons first rest ih =>
      rw [relaxedPass]
      split
      · rcases List.mem_cons.mp h with rfl | hrest
        · exact Or.inl ((State.gained_setAll_true action reached).mono (within_relaxedPass _ _)
            (size_reached_relaxedPass _ _))
        · exact ih hrest
      · rcases List.mem_cons.mp h with rfl | hrest
        · exact Or.inr List.mem_cons_self
        · exact (ih hrest).imp_right (List.mem_cons_of_mem _)

/-- A pass that gains nothing leaves the facts as they are, and they are closed. -/
theorem closedUnder_of_relaxedPass_unchanged
    (h : (relaxedPass actions reached).changed = false) :
    (relaxedPass actions reached).reached = reached ∧
      ∀ action ∈ actions, reached.ClosedUnder action := by
  induction actions with
  | nil => exact ⟨rfl, by simp⟩
  | cons action rest ih =>
      rw [relaxedPass] at h ⊢
      split at h
      · rename_i hpre
        rw [if_pos hpre]
        obtain ⟨hadd, hrest⟩ := Bool.or_eq_false_iff.mp h
        have hgained : ∀ fact ∈ action.add, reached.holds fact = true := by
          simpa using hadd
        rw [State.setAll_true_eq_self hgained] at hrest ⊢
        obtain ⟨hreached, hclosed⟩ := ih hrest
        refine ⟨hreached, List.forall_mem_cons.mpr ⟨fun _ fact hfact _ => ?_, hclosed⟩⟩
        exact hgained fact hfact
      · rename_i hpre
        rw [if_neg hpre]
        obtain ⟨hreached, hclosed⟩ := ih h
        refine ⟨hreached, List.forall_mem_cons.mpr ⟨fun hall => ?_, hclosed⟩⟩
        exact absurd (List.all_eq_true.mpr hall) hpre

theorem size_relaxedClosure (waiting : List Action) (reached : State) :
    (relaxedClosure waiting reached).size = reached.size := by
  fun_induction relaxedClosure waiting reached with
  | case1 waiting reached pass hchanged ih => exact ih.trans (size_reached_relaxedPass _ _)
  | case2 waiting reached pass hchanged => exact size_reached_relaxedPass _ _

theorem within_relaxedClosure (waiting : List Action) (reached : State) :
    reached.Within (relaxedClosure waiting reached) := by
  fun_induction relaxedClosure waiting reached with
  | case1 waiting reached pass hchanged ih => exact (within_relaxedPass _ _).trans ih
  | case2 waiting reached pass hchanged => exact within_relaxedPass _ _

/-- No action is lost: one that was retired has fired, and one that still waits cannot fire. -/
theorem closedUnder_relaxedClosure (h : action ∈ waiting) :
    (relaxedClosure waiting reached).ClosedUnder action := by
  fun_induction relaxedClosure waiting reached with
  | case1 waiting reached pass hchanged ih =>
      rcases gained_or_waiting_of_relaxedPass h with hgained | hwaiting
      · exact fun _ => hgained.mono (within_relaxedClosure _ _) (size_relaxedClosure _ _)
      · exact ih hwaiting
  | case2 waiting reached pass hchanged =>
      obtain ⟨hreached, hclosed⟩ :=
        closedUnder_of_relaxedPass_unchanged (Bool.eq_false_iff.mpr hchanged)
      rw [hreached]
      exact hclosed action h

end Passes

section Executions

variable {problem : Problem} {state next reached : State} {step : PlanStep}

theorem PlanStep.within_of_execute (hsize : reached.size = problem.factCount)
    (hclosed : ∀ action ∈ problem.actions, reached.ClosedUnder action)
    (hstate : state.Within reached) (h : step.execute problem state = .ok next) :
    next.Within reached := by
  intro fact hfact
  -- Negative preconditions and deletes are not needed: they only make the step reach less.
  obtain ⟨-, ⟨id, hid, hadds⟩ | ⟨hholds, -⟩⟩ := (holds_of_execute h fact).mp hfact
  · obtain ⟨action, hget, hadd⟩ := Problem.mem_adders.mp hadds
    have haction : action ∈ problem.actions := List.mem_of_getElem? hget
    have hpre := (Action.isApplicable_iff.mp (isApplicable_of_execute h hid hget)).1
    have hrange := problem.actions_inRange action haction fact
      (Action.mem_facts_iff.mpr (Or.inr (Or.inr (Or.inl hadd))))
    exact hclosed action haction (fun other hother => hstate other (hpre other hother)) fact hadd
      (hsize ▸ hrange)
  · exact hstate fact hholds

theorem PlanStep.holds_of_undeleted {fact : Nat}
    (hundeleted : ∀ action ∈ problem.actions, action.deletes fact = false)
    (hstate : state.holds fact = true) (h : step.execute problem state = .ok next) :
    next.holds fact = true := by
  refine (holds_of_execute h fact).mpr ⟨State.lt_size_of_holds hstate, Or.inr ⟨hstate, ?_⟩⟩
  intro id _ hdeletes
  obtain ⟨action, hget, hdel⟩ := Problem.mem_deleters.mp hdeletes
  rw [hundeleted action (List.mem_of_getElem? hget)] at hdel
  cases hdel

theorem Problem.size_relaxedReachable (problem : Problem) :
    problem.relaxedReachable.size = problem.factCount :=
  (size_relaxedClosure _ _).trans problem.init_size

theorem Problem.within_relaxedReachable {steps : List PlanStep}
    (h : Plan.executeFrom problem problem.init steps = .ok state) :
    state.Within problem.relaxedReachable :=
  Plan.executeFrom_induction (P := fun visited => visited.Within problem.relaxedReachable)
    (fun _ _ _ hvisited hstep => PlanStep.within_of_execute problem.size_relaxedReachable
      (fun _ haction => closedUnder_relaxedClosure haction) hvisited hstep)
    h (within_relaxedClosure _ _)

theorem Problem.holds_of_undeleted {steps : List PlanStep} {fact : Nat}
    (h : Plan.executeFrom problem problem.init steps = .ok state)
    (hinit : problem.init.holds fact = true)
    (hundeleted : ∀ action ∈ problem.actions, action.deletes fact = false) :
    state.holds fact = true :=
  Plan.executeFrom_induction (P := fun visited => visited.holds fact = true)
    (fun _ _ _ hvisited hstep => PlanStep.holds_of_undeleted hundeleted hvisited hstep) h hinit

theorem Problem.goalPossiblyReachable_of_achievesGoal {plan : Plan}
    (h : plan.achievesGoal problem = true) : problem.goalPossiblyReachable = true := by
  obtain ⟨final, hfinal, hgoal⟩ := Plan.achievesGoal_iff.mp h
  rw [Goal.isSatisfiedBy, Bool.and_eq_true, List.all_eq_true, List.all_eq_true] at hgoal
  obtain ⟨hpos, hneg⟩ := hgoal
  rw [Problem.goalPossiblyReachable, Bool.and_eq_true, List.all_eq_true, List.all_eq_true]
  refine ⟨fun fact hfact => within_relaxedReachable hfinal fact (hpos fact hfact), ?_⟩
  intro fact hfact
  obtain ⟨hfact, hinit⟩ := List.mem_filter.mp hfact
  have hfalse : final.holds fact = false := by simpa using hneg fact hfact
  by_contra hnone
  have hundeleted : ∀ action ∈ problem.actions, action.deletes fact = false := by
    simpa using hnone
  rw [holds_of_undeleted hfinal hinit hundeleted] at hfalse
  cases hfalse

theorem planWith_ne_unreachable {σ : Type} {backend : Backend σ} {config : PlannerConfig}
    (h : problem.goalPossiblyReachable = true) (solver : σ) (entries : List HorizonStats) :
    (planWith backend config problem solver).1 ≠ .ok ⟨.unreachable, entries⟩ := by
  rw [planWith, if_pos h]
  exact deepen_ne_unreachable (Nat.zero_le _) entries

end Executions

/-- Every state that a plan visits has only relaxed reachable facts, and it has all initial facts
that no action deletes.  So a goal that the static test rules out has no plan, and a problem with a
plan is never called unreachable. -/
theorem static_test_sound (problem : Problem) :
    (∀ (plan : Plan) (final : State), plan.simulate problem = .ok final →
      ∀ visited, visited <+: plan.steps →
        ∃ state, Plan.executeFrom problem problem.init visited = .ok state ∧
          (∀ fact ∈ state.trueFacts, fact ∈ problem.relaxedReachable.trueFacts) ∧
          ∀ fact, problem.init.holds fact = true →
            (∀ action ∈ problem.actions, action.deletes fact = false) →
            state.holds fact = true) ∧
    (problem.goalPossiblyReachable = false → ∀ plan : Plan, plan.achievesGoal problem = false) ∧
    ((∃ plan : Plan, plan.achievesGoal problem = true) ∨ problem.initSatisfiesGoal = true →
      ∀ (σ : Type) (backend : Backend σ) (config : PlannerConfig) (solver : σ)
        (stats : List HorizonStats),
        (planWith backend config problem solver).1 ≠ .ok ⟨.unreachable, stats⟩) := by
  refine ⟨?_, ?_, ?_⟩
  · intro plan final hfinal visited hvisited
    obtain ⟨state, hstate⟩ := Plan.exists_executeFrom_of_prefix hfinal hvisited
    refine ⟨state, hstate, fun fact hfact => ?_, fun fact => Problem.holds_of_undeleted hstate⟩
    rw [State.mem_trueFacts] at hfact ⊢
    exact Problem.within_relaxedReachable hstate fact hfact
  · intro hruledOut plan
    rw [← Bool.not_eq_true]
    intro hachieves
    rw [Problem.goalPossiblyReachable_of_achievesGoal hachieves] at hruledOut
    cases hruledOut
  · intro hsolvable σ backend config solver stats
    have hplan : ∃ plan : Plan, plan.achievesGoal problem = true := by
      rcases hsolvable with hplan | hinit
      · exact hplan
      · exact ⟨⟨[]⟩, hinit⟩
    obtain ⟨plan, hachieves⟩ := hplan
    exact planWith_ne_unreachable (Problem.goalPossiblyReachable_of_achievesGoal hachieves) solver
      stats

/-- A lamp that lights when the switch is on and the fuse is whole.  The fuse is broken. -/
def brokenLamp : Problem where
  facts := ["switch", "fuse", "lamp"]
  actions := [⟨"light", [0, 1], [], [2], []⟩, ⟨"toggle twice", [0], [], [0], [0]⟩]
  init := ⟨#[true, false, false]⟩
  goal := ⟨[2], []⟩
  actions_inRange := by decide
  actions_normal := by simp [Action.Normal]
  init_size := rfl
  goal_inRange := by decide
  goal_pos_ascending := by decide
  goal_neg_ascending := by decide
  goal_consistent := by decide

theorem static_test_sound_brokenLamp :
    (∃ state, Plan.executeFrom brokenLamp brokenLamp.init [⟨0, [1]⟩] = .ok state ∧
      (∀ fact ∈ state.trueFacts, fact ∈ brokenLamp.relaxedReachable.trueFacts) ∧
      state.holds 0 = true) ∧
    (∀ plan : Plan, plan.achievesGoal brokenLamp = false) ∧
    ∀ stats, (planWith (ReferenceSolver.backend .patient) {} lamps (.init {})).1 ≠
      .ok ⟨.unreachable, stats⟩ := by
  obtain ⟨hvisited, hnone, -⟩ := static_test_sound brokenLamp
  refine ⟨?_, hnone (by decide +kernel), ?_⟩
  · obtain ⟨state, hstate, hreached, hstays⟩ :=
      hvisited ⟨[⟨0, [1]⟩, ⟨3, [1, 1]⟩]⟩ brokenLamp.init rfl [⟨0, [1]⟩] ⟨[⟨3, [1, 1]⟩], rfl⟩
    exact ⟨state, hstate, hreached, hstays 0 rfl (by decide)⟩
  · exact (static_test_sound lamps).2.2 (Or.inl ⟨lampsPlan, rfl⟩) ReferenceSolver
      (ReferenceSolver.backend .patient) {} (.init {})

end BoundedPlanning
