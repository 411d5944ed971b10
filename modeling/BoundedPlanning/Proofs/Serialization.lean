import BoundedPlanning.Proofs.EncodingCorrectness

namespace BoundedPlanning

namespace Action

/-- Take the actions one after the other; `none` if one of them is not applicable at its turn. -/
def takeAll : List Action → State → Option State
  | [], state => some state
  | action :: rest, state =>
    if action.isApplicable state then takeAll rest (action.apply state) else none

variable {a b : Action} {state : State}

theorem takeAll_append (first second : List Action) (state : State) :
    takeAll (first ++ second) state = (takeAll first state).bind (takeAll second) := by
  induction first generalizing state with
  | nil => rfl
  | cons action rest ih =>
      rw [List.cons_append, takeAll, takeAll]
      split
      · exact ih _
      · rfl

theorem applyAll_singleton (action : Action) (state : State) :
    PlanStep.applyAll [action] state = action.apply state := by
  simp only [PlanStep.applyAll, apply, List.flatMap_singleton]

theorem size_apply (action : Action) (state : State) : (action.apply state).size = state.size := by
  rw [← applyAll_singleton, PlanStep.size_applyAll]

theorem holds_apply {action : Action} {fact : Nat} :
    (action.apply state).holds fact = true ↔
      fact < state.size ∧
        (fact ∈ action.add ∨ state.holds fact = true ∧ fact ∉ action.del) := by
  rw [← applyAll_singleton, PlanStep.holds_applyAll]
  simp only [List.mem_singleton, exists_eq_left, forall_eq]

theorem clobbers_eq_false_of_interferesWith (h : a.interferesWith b = false) :
    a.clobbers b = false :=
  (Bool.or_eq_false_iff.mp h).1

theorem isApplicable_apply (h : a.interferesWith b = false)
    (happlicable : b.isApplicable state = true) : b.isApplicable (a.apply state) = true := by
  have hfree := Bool.eq_false_iff.mp (clobbers_eq_false_of_interferesWith h)
  rw [ne_eq, clobbers_iff, not_or] at hfree
  obtain ⟨hdeletes, hadds⟩ := hfree
  obtain ⟨hpre, hpreNeg⟩ := isApplicable_iff.mp happlicable
  refine isApplicable_iff.mpr ⟨fun fact hfact => ?_, fun fact hfact => ?_⟩
  · have hholds := hpre fact hfact
    refine holds_apply.mpr ⟨State.lt_size_of_holds hholds, ?_⟩
    by_cases hadd : fact ∈ a.add
    · exact Or.inl hadd
    · refine Or.inr ⟨hholds, fun hdel => hdeletes ⟨fact, ?_, Or.inl hfact⟩⟩
      exact deletes_iff.mpr ⟨hdel, hadd⟩
  · rw [← Bool.not_eq_true, holds_apply]
    rintro ⟨-, hadd | ⟨hholds, -⟩⟩
    · exact hadds ⟨fact, hadd, Or.inl hfact⟩
    · rw [hpreNeg fact hfact] at hholds
      cases hholds

/-- No action deletes what another one adds, unless the two interfere. -/
theorem not_mem_del_of_mem_add (h : a.interferesWith b = false) {fact : Nat}
    (hadd : fact ∈ a.add) : fact ∉ b.del := by
  intro hdel
  have hclobbers : a.clobbers b = true := by
    refine clobbers_iff.mpr (Or.inr ⟨fact, hadd, Or.inr ?_⟩)
    by_cases hboth : fact ∈ b.add
    · exact Or.inl hboth
    · exact Or.inr (deletes_iff.mpr ⟨hdel, hboth⟩)
  rw [clobbers_eq_false_of_interferesWith h] at hclobbers
  cases hclobbers

theorem applyAll_apply {rest : List Action} (h : ∀ b ∈ rest, a.interferesWith b = false) :
    PlanStep.applyAll rest (a.apply state) = PlanStep.applyAll (a :: rest) state := by
  have hsize := size_apply a state
  refine State.ext_holds (by simp only [PlanStep.size_applyAll, hsize]) fun fact _ => ?_
  rw [Bool.eq_iff_iff, PlanStep.holds_applyAll, PlanStep.holds_applyAll, hsize, holds_apply,
    List.exists_mem_cons_iff, List.forall_mem_cons]
  refine and_congr_right fun hlt => ?_
  constructor
  · rintro (hadded | ⟨⟨-, hadd | ⟨hholds, hdel⟩⟩, hundeleted⟩)
    · exact Or.inl (Or.inr hadded)
    · exact Or.inl (Or.inl hadd)
    · exact Or.inr ⟨hholds, hdel, hundeleted⟩
  · rintro ((hadd | hadded) | ⟨hholds, hdel, hundeleted⟩)
    · exact Or.inr ⟨⟨hlt, Or.inl hadd⟩, fun b hb => not_mem_del_of_mem_add (h b hb) hadd⟩
    · exact Or.inl hadded
    · exact Or.inr ⟨⟨hlt, Or.inr ⟨hholds, hdel⟩⟩, hundeleted⟩

theorem takeAll_eq_applyAll {actions : List Action}
    (happlicable : ∀ action ∈ actions, action.isApplicable state = true)
    (hfree : actions.Pairwise fun a b => a.interferesWith b = false) :
    takeAll actions state = some (PlanStep.applyAll actions state) := by
  induction actions generalizing state with
  | nil => rfl
  | cons action rest ih =>
      obtain ⟨haction, hrest⟩ := List.forall_mem_cons.mp happlicable
      obtain ⟨hfirst, hothers⟩ := List.pairwise_cons.mp hfree
      rw [takeAll, if_pos haction, ← applyAll_apply hfirst]
      exact ih (fun b hb => isApplicable_apply (hfirst b hb) (hrest b hb)) hothers

theorem applyAll_perm {order actions : List Action} (h : order.Perm actions) :
    PlanStep.applyAll order state = PlanStep.applyAll actions state := by
  refine State.ext_holds (by simp only [PlanStep.size_applyAll]) fun fact _ => ?_
  rw [Bool.eq_iff_iff, PlanStep.holds_applyAll, PlanStep.holds_applyAll]
  simp only [h.mem_iff]

/-- Actions that do not interfere lead to the same state in every order. -/
theorem takeAll_perm {order actions : List Action} (hperm : order.Perm actions)
    (happlicable : ∀ action ∈ actions, action.isApplicable state = true)
    (hfree : actions.Pairwise fun a b => a.interferesWith b = false) :
    takeAll order state = some (PlanStep.applyAll actions state) := by
  have hsymm : ∀ {a b : Action}, a.interferesWith b = false → b.interferesWith a = false :=
    fun h => (interferesWith_comm _ _).trans h
  rw [← applyAll_perm hperm]
  exact takeAll_eq_applyAll (fun action haction => happlicable action (hperm.mem_iff.mp haction))
    ((hperm.pairwise_iff hsymm).mpr hfree)

end Action

/-- A plan that takes the same actions one at a time: those of the first step in some order, then
those of the second, and so on.  Its times are free. -/
structure Plan.Linearizes (linear plan : Plan) : Prop where
  single : ∀ step ∈ linear.steps, ∃ id, step.actions = [id]
  exists_orders : ∃ orders : List (List Nat),
    List.Forall₂ (fun order step => order.Perm step.actions) orders plan.steps ∧
      linear.actions = orders.flatten

section Linearization

variable {problem : Problem} {state next final : State} {ids : List Nat} {actions : List Action}

theorem Problem.map_action?_eq_iff :
    ids.map problem.action? = actions.map some ↔
      (∀ id ∈ ids, ∃ action, problem.action? id = some action) ∧
        ids.filterMap problem.action? = actions := by
  induction ids generalizing actions with
  | nil =>
      rw [List.map_nil, List.filterMap_nil, eq_comm, List.map_eq_nil_iff]
      simp [eq_comm]
  | cons id rest ih =>
      rw [List.map_cons, List.forall_mem_cons, List.filterMap_cons]
      cases problem.action? id with
      | none => cases actions <;> simp
      | some action =>
          cases actions with
          | nil => simp
          | cons first others => simp [ih, and_left_comm]

theorem PlanStep.takeAll_of_execute {step : PlanStep} {order : List Nat}
    (hstep : step.execute problem state = .ok next)
    (hfree : step.actions.Pairwise problem.Independent) (hperm : order.Perm step.actions) :
    ∃ actions, order.map problem.action? = actions.map some ∧
      Action.takeAll actions state = some next := by
  obtain ⟨hknown, rfl⟩ := execute_eq_ok_iff.mp hstep
  refine ⟨order.filterMap problem.action?, Problem.map_action?_eq_iff.mpr ⟨?_, rfl⟩, ?_⟩
  · intro id hid
    obtain ⟨action, haction, -⟩ := hknown id (hperm.mem_iff.mp hid)
    exact ⟨action, haction⟩
  · refine Action.takeAll_perm (hperm.filterMap _) ?_ ?_
    · intro action haction
      obtain ⟨id, hid, hget⟩ := mem_filterMap_action?.mp haction
      exact isApplicable_of_execute hstep hid hget
    · refine List.pairwise_filterMap.mpr (hfree.imp ?_)
      exact fun hij a ha b hb => hij a b ha hb

theorem Plan.perm_actions (steps : List PlanStep) :
    List.Forall₂ (fun order step => order.Perm step.actions) (steps.map PlanStep.actions) steps := by
  rw [List.forall₂_map_left_iff]
  exact List.forall₂_same.mpr fun step _ => List.Perm.refl _

/-- A plan whose steps do not interfere may take its actions one after the other, those of each step
in any order. -/
theorem Plan.takeAll_of_executeFrom {steps : List PlanStep} {orders : List (List Nat)}
    (hsteps : executeFrom problem state steps = .ok final)
    (hfree : ∀ step ∈ steps, step.actions.Pairwise problem.Independent)
    (horders : List.Forall₂ (fun order step => order.Perm step.actions) orders steps) :
    ∃ actions, orders.flatten.map problem.action? = actions.map some ∧
      Action.takeAll actions state = some final := by
  induction horders generalizing state with
  | nil =>
      cases hsteps
      exact ⟨[], rfl, rfl⟩
  | @cons order step orders steps hperm _ ih =>
      obtain ⟨hstepFree, hrestFree⟩ := List.forall_mem_cons.mp hfree
      rw [executeFrom] at hsteps
      cases hstep : step.execute problem state with
      | error error => simp [hstep] at hsteps
      | ok next =>
          rw [hstep] at hsteps
          obtain ⟨first, hfirst, hnext⟩ := PlanStep.takeAll_of_execute hstep hstepFree hperm
          obtain ⟨rest, hrest, hfinal⟩ := ih hsteps hrestFree
          refine ⟨first ++ rest, ?_, ?_⟩
          · rw [List.flatten_cons, List.map_append, hfirst, hrest, List.map_append]
          · rw [Action.takeAll_append, hnext, Option.bind_some, hfinal]

theorem Plan.executeFrom_of_takeAll {steps : List PlanStep}
    (hsingle : ∀ step ∈ steps, ∃ id, step.actions = [id])
    (hactions : (steps.flatMap PlanStep.actions).map problem.action? = actions.map some)
    (htake : Action.takeAll actions state = some final) :
    executeFrom problem state steps = .ok final := by
  induction steps generalizing state actions with
  | nil =>
      rw [List.flatMap_nil, List.map_nil, eq_comm, List.map_eq_nil_iff] at hactions
      subst hactions
      cases htake
      rfl
  | cons step rest ih =>
      obtain ⟨⟨id, hid⟩, hrest⟩ := List.forall_mem_cons.mp hsingle
      rw [List.flatMap_cons, hid, List.singleton_append, List.map_cons] at hactions
      cases actions with
      | nil => cases hactions
      | cons action others =>
          obtain ⟨haction, hothers⟩ := List.cons_eq_cons.mp hactions
          rw [Action.takeAll] at htake
          split at htake
          · rename_i happlicable
            have hstep : step.execute problem state = .ok (action.apply state) := by
              rw [PlanStep.execute_eq_ok_iff, hid, ← Action.applyAll_singleton]
              refine ⟨?_, by rw [List.filterMap_cons, haction, List.filterMap_nil]⟩
              exact List.forall_mem_singleton.mpr ⟨action, haction, happlicable⟩
            rw [executeFrom, hstep]
            exact ih hrest hothers htake
          · cases htake

theorem Plan.Linearizes.simulate {plan linear : Plan} (h : linear.Linearizes plan)
    (hplan : plan.simulate problem = .ok final)
    (hfree : ∀ step ∈ plan.steps, step.actions.Pairwise problem.Independent) :
    linear.simulate problem = .ok final := by
  obtain ⟨orders, horders, hactions⟩ := h.exists_orders
  obtain ⟨actions, hknown, htake⟩ := Plan.takeAll_of_executeFrom hplan hfree horders
  rw [← hactions] at hknown
  exact Plan.executeFrom_of_takeAll h.single hknown htake

end Linearization

/-- Actions that are applicable and do not interfere may be taken one after the other in any order,
and lead to the state after the step that takes them together.  So every linearization of a plan
whose steps do not interfere executes, to the same final state. -/
theorem parallel_steps_serializable :
    (∀ (state : State) (actions order : List Action),
      (∀ action ∈ actions, action.isApplicable state = true) →
      (actions.Pairwise fun a b => a.interferesWith b = false) → order.Perm actions →
      Action.takeAll order state = some (PlanStep.applyAll actions state) ∧
        ∀ (problem : Problem) (step : PlanStep),
          step.actions.map problem.action? = actions.map some →
            step.execute problem state = .ok (PlanStep.applyAll actions state)) ∧
    ∀ (problem : Problem) (plan linear : Plan) (final : State),
      plan.simulate problem = .ok final →
      (∀ step ∈ plan.steps, step.actions.Pairwise problem.Independent) →
      linear.Linearizes plan → linear.simulate problem = .ok final := by
  constructor
  · intro state actions order happlicable hfree hperm
    refine ⟨Action.takeAll_perm hperm happlicable hfree, fun problem step hactions => ?_⟩
    obtain ⟨hknown, hfilter⟩ := Problem.map_action?_eq_iff.mp hactions
    rw [PlanStep.execute_eq_ok_iff, hfilter]
    refine ⟨fun id hid => ?_, rfl⟩
    obtain ⟨action, haction⟩ := hknown id hid
    refine ⟨action, haction, happlicable action ?_⟩
    rw [← hfilter]
    exact List.mem_filterMap.mpr ⟨id, hid, haction⟩
  · intro problem plan linear final hplan hfree hlinear
    exact hlinear.simulate hplan hfree

def relightLeft : Action := ⟨"relight left", [0], [], [0], [0]⟩

def lightRight : Action := ⟨"light right", [], [1], [1], []⟩

theorem parallel_steps_serializable_lamps :
    Action.takeAll [lightRight, relightLeft] ⟨#[true, false]⟩ = some ⟨#[true, true]⟩ ∧
      (Plan.mk [⟨0, [1]⟩, ⟨1, [0]⟩]).simulate lamps = .ok ⟨#[true, true]⟩ := by
  obtain ⟨horders, hplans⟩ := parallel_steps_serializable
  constructor
  · exact (horders ⟨#[true, false]⟩ [relightLeft, lightRight] [lightRight, relightLeft]
      (by decide) (by decide) (List.Perm.swap _ _ _)).1
  · refine hplans lamps lampsPlan _ _ simulate_lampsPlan ?_ ⟨by simp, [[1, 0]], ?_, rfl⟩
    · intro step hstep
      exact (legal_lampsPlan step hstep).2.2.imp fun hij => hij.2
    · exact .cons (List.Perm.swap _ _ _) .nil

end BoundedPlanning
