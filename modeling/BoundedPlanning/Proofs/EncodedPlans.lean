import BoundedPlanning.Proofs.Decoding

namespace BoundedPlanning

def Problem.Independent (problem : Problem) (i j : Nat) : Prop :=
  ∀ a b, problem.action? i = some a → problem.action? j = some b → a.interferesWith b = false

namespace StepSemantics

/-- What the actions of one step may be: a single one, or several in ascending order of which no
two interfere. -/
def Legal (semantics : StepSemantics) (problem : Problem) (actions : List Nat) : Prop :=
  match semantics with
  | .sequential => ∃ id, actions = [id]
  | .parallel => actions ≠ [] ∧ actions.Pairwise fun i j => i < j ∧ problem.Independent i j

variable {semantics : StepSemantics} {problem : Problem} {actions : List Nat}

theorem Legal.ne_nil (h : semantics.Legal problem actions) : actions ≠ [] := by
  cases semantics with
  | sequential =>
      obtain ⟨id, rfl⟩ := h
      simp
  | parallel => exact h.1

theorem Legal.ascending (h : semantics.Legal problem actions) : actions.Pairwise (· < ·) := by
  cases semantics with
  | sequential =>
      obtain ⟨id, rfl⟩ := h
      exact List.pairwise_singleton _ _
  | parallel => exact h.2.imp fun hij => hij.1

theorem allows_nil : semantics.Allows problem fun id => id ∈ ([] : List Nat) := by
  cases semantics with
  | sequential =>
      intro i j hi
      cases hi
  | parallel =>
      intro i j a b _ hi
      cases hi

theorem Legal.allows (h : semantics.Legal problem actions) :
    semantics.Allows problem fun id => id ∈ actions := by
  cases semantics with
  | sequential =>
      obtain ⟨id, rfl⟩ := h
      intro i j hi hj
      rw [List.mem_singleton.mp hi, List.mem_singleton.mp hj]
  | parallel =>
      have hboth : ∀ i j, problem.Independent i j → problem.Independent j i := by
        intro i j hij a b ha hb
        rw [Action.interferesWith_comm]
        exact hij b a hb ha
      have hforward : actions.Pairwise fun i j => i ≠ j → problem.Independent i j :=
        h.2.imp fun hij _ => hij.2
      have hbackward : actions.Pairwise fun i j => j ≠ i → problem.Independent j i :=
        h.2.imp fun hij _ => hboth _ _ hij.2
      intro i j a b hne hi hj
      exact List.Pairwise.forall_of_forall_of_flip (fun i _ hne => absurd rfl hne) hforward
        hbackward hi hj hne a b

theorem legal_of_allows (hnonempty : actions ≠ []) (hascending : actions.Pairwise (· < ·))
    (h : semantics.Allows problem fun id => id ∈ actions) : semantics.Legal problem actions := by
  cases semantics with
  | sequential =>
      cases actions with
      | nil => exact absurd rfl hnonempty
      | cons id rest =>
          cases rest with
          | nil => exact ⟨id, rfl⟩
          | cons other rest =>
              have heq := h id other (by simp) (by simp)
              have := (List.pairwise_cons.mp hascending).1 other (by simp)
              omega
  | parallel =>
      refine ⟨hnonempty, hascending.imp_of_mem ?_⟩
      intro i j hi hj hij
      exact ⟨hij, fun a b ha hb => h i j a b (by omega) hi hj ha hb⟩

end StepSemantics

theorem Goal.isSatisfiedBy_iff {goal : Goal} {state : State} :
    goal.isSatisfiedBy state = true ↔
      ∀ fact truth, (fact, truth) ∈ goal.literals → state.holds fact = truth := by
  simp only [Goal.isSatisfiedBy, Goal.literals, Bool.and_eq_true, List.all_eq_true,
    List.mem_append, List.mem_map, Prod.mk.injEq, Bool.not_eq_true']
  constructor
  · rintro ⟨hpos, hneg⟩ fact truth (⟨_, hfact, rfl, rfl⟩ | ⟨_, hfact, rfl, rfl⟩)
    · exact hpos _ hfact
    · exact hneg _ hfact
  · intro h
    exact ⟨fun fact hfact => h fact true (Or.inl ⟨fact, hfact, rfl, rfl⟩),
      fun fact hfact => h fact false (Or.inr ⟨fact, hfact, rfl, rfl⟩)⟩

theorem Problem.lt_factCount_of_mem_goal {problem : Problem} {fact : Nat} {truth : Bool}
    (h : (fact, truth) ∈ problem.goal.literals) : fact < problem.factCount := by
  refine problem.goal_inRange fact ?_
  simp only [Goal.literals, List.mem_append, List.mem_map, Prod.mk.injEq] at h
  simp only [Goal.facts, List.mem_append]
  rcases h with ⟨_, hfact, rfl, -⟩ | ⟨_, hfact, rfl, -⟩
  · exact Or.inl hfact
  · exact Or.inr hfact

namespace Encoder

variable {problem : Problem} {semantics : StepSemantics} {last : Nat}
  {encoder : Encoder problem semantics}

/-- The goal literals ask for the values that the goal asks for. -/
theorem EncodedTo.exists_goalLiterals (h : encoder.EncodedTo last) :
    ∃ goal, encoder.goalLiterals last = .ok goal ∧
      (∀ lit ∈ goal, lit ≠ 0 ∧ lit.natAbs ≤ encoder.index.size) ∧
      ∀ value : Valuation, (∀ lit ∈ goal, value.Satisfies [lit]) ↔
        ∀ fact truth, (fact, truth) ∈ problem.goal.literals →
          encoder.index.valueOf value (.fact fact) last = some truth := by
  have hvar : ∀ fact truth, (fact, truth) ∈ problem.goal.literals →
      ∃ var, encoder.index.get? (.fact fact) last = some var := by
    intro fact truth hmem
    rw [VariableIndex.exists_get?_iff_mem h.consistent, h.entries_eq, fact_mem_layout]
    exact ⟨Problem.lt_factCount_of_mem_goal hmem, le_rfl⟩
  obtain ⟨goal, hgoal⟩ : ∃ goal, encoder.goalLiterals last = .ok goal := by
    refine exists_mapM_eq_ok ?_
    rintro ⟨fact, truth⟩ hmem
    obtain ⟨var, hget⟩ := hvar fact truth hmem
    exact ⟨literal var truth, by simp only [hget]⟩
  have hlit : ∀ lit, lit ∈ goal ↔ ∃ fact truth var, (fact, truth) ∈ problem.goal.literals ∧
      encoder.index.get? (.fact fact) last = some var ∧ literal var truth = lit := by
    intro lit
    rw [mem_of_mapM_eq_ok hgoal]
    constructor
    · rintro ⟨⟨fact, truth⟩, hmem, hresult⟩
      obtain ⟨var, hget⟩ := hvar fact truth hmem
      simp only [hget, Except.ok.injEq] at hresult
      exact ⟨fact, truth, var, hmem, hget, hresult⟩
    · rintro ⟨fact, truth, var, hmem, hget, rfl⟩
      exact ⟨(fact, truth), hmem, by simp only [hget]⟩
  refine ⟨goal, hgoal, fun lit hmem => ?_, fun value => ⟨fun hall fact truth hmem => ?_, ?_⟩⟩
  · obtain ⟨fact, truth, var, -, hget, rfl⟩ := (hlit lit).mp hmem
    have hbounds := VariableIndex.get?_bounds h.consistent hget
    rw [natAbs_literal]
    exact ⟨literal_ne_zero hbounds.1 truth, hbounds.2⟩
  · obtain ⟨var, hget⟩ := hvar fact truth hmem
    have hvalue := hall _ ((hlit _).mpr ⟨fact, truth, var, hmem, hget, rfl⟩)
    rw [Valuation.satisfies_cons_literal (VariableIndex.get?_bounds h.consistent hget).1] at hvalue
    rw [VariableIndex.valueOf_of_get? hget]
    exact hvalue.resolve_right Valuation.not_satisfies_nil
  · intro hall lit hmem
    obtain ⟨fact, truth, var, hgoalMem, hget, rfl⟩ := (hlit lit).mp hmem
    rw [Valuation.satisfies_cons_literal (VariableIndex.get?_bounds h.consistent hget).1]
    have hvalue := hall fact truth hgoalMem
    rw [VariableIndex.valueOf_of_get? hget] at hvalue
    exact Or.inl hvalue

variable {clauses : List Clause} {vars : Nat → TransitionVars} {value : Valuation} {plan : Plan}

/-- The goal literals hold exactly when the plan that the values describe achieves the goal. -/
theorem Reads.goal_iff (hreads : encoder.Reads last clauses vars)
    (hsatisfied : ∀ clause ∈ clauses, value.Satisfies clause.literals)
    (hplan : plan.Chronological) (htimes : ∀ step ∈ plan.steps, step.time < last)
    (htaken : ∀ time < last, ∀ id, id ∈ plan.actionsAt time ↔
      encoder.index.valueOf value (.action id) time = some true) {goal : List Int}
    (hgoal : encoder.goalLiterals last = .ok goal) :
    (∀ lit ∈ goal, value.Satisfies [lit]) ↔ plan.achievesGoal problem = true := by
  obtain ⟨state, hstate, -, hvalues⟩ := hreads.exists_stateAt hsatisfied hplan htaken le_rfl
  obtain ⟨found, hfound, -, hmeaning⟩ := hreads.encodedTo.exists_goalLiterals
  rw [hgoal, Except.ok.injEq] at hfound
  subst hfound
  rw [hmeaning, Plan.achievesGoal, Plan.simulate_eq_stateAt htimes, hstate]
  simp only [Goal.isSatisfiedBy_iff]
  refine forall_congr' fun fact => forall_congr' fun truth => forall_congr' fun hmem => ?_
  rw [hvalues fact (Problem.lt_factCount_of_mem_goal hmem), Option.some.injEq]

/-- A model decodes to a legal plan with the actions that are true in the model. -/
theorem Reads.exists_decode (hreads : encoder.Reads last clauses vars) {model : Model}
    (hsatisfied : model.SatisfiesAll clauses)
    (hknown : ∀ var ∈ model.trueVars, var ≤ encoder.index.size) :
    ∃ plan, decode encoder.index semantics model last = .ok plan ∧ plan.Canonical ∧
      (∀ step ∈ plan.steps, step.time < last ∧ semantics.Legal problem step.actions) ∧
      ∀ time id, id ∈ plan.actionsAt time ↔
        time < last ∧ encoder.index.valueOf model.value? (.action id) time = some true := by
  have hallows : ∀ time < last, semantics.Allows problem fun id =>
      encoder.index.valueOf model.value? (.action id) time = some true :=
    fun time htime => hreads.allows (Model.satisfiesAll_iff.mp hsatisfied) htime
  have hone : semantics = .sequential → ∀ time < last, ∀ i j,
      encoder.index.valueOf model.value? (.action i) time = some true →
        encoder.index.valueOf model.value? (.action j) time = some true → i = j := by
    rintro rfl time htime i j hi hj
    exact hallows time htime i j hi hj
  obtain ⟨plan, hplan, hcanonical, hactions⟩ :=
    exists_decode_eq_ok hreads.encodedTo.consistent hknown hone
  refine ⟨plan, hplan, hcanonical, fun step hstep => ?_, hactions⟩
  have hstepActions := Plan.actionsAt_of_mem hcanonical.chronological hstep
  have htime : step.time < last := by
    obtain ⟨id, hid⟩ := List.exists_mem_of_ne_nil _ (hcanonical.nonempty step hstep)
    rw [← hstepActions, hactions] at hid
    exact hid.1
  refine ⟨htime, StepSemantics.legal_of_allows (hcanonical.nonempty step hstep)
    (hcanonical.ascending step hstep) ?_⟩
  have htaken : (fun id => encoder.index.valueOf model.value? (.action id) step.time = some true) =
      fun id => id ∈ step.actions := by
    funext id
    rw [← hstepActions, hactions, and_iff_right htime]
  rw [← htaken]
  exact hallows step.time htime

/-- A legal plan is decoded from every model whose true actions are those of the plan. -/
theorem Reads.decode_eq (hreads : encoder.Reads last clauses vars) {model : Model}
    (hsatisfied : model.SatisfiesAll clauses)
    (hknown : ∀ var ∈ model.trueVars, var ≤ encoder.index.size) (hplan : plan.Chronological)
    (hsteps : ∀ step ∈ plan.steps, step.time < last ∧ semantics.Legal problem step.actions)
    (hactions : ∀ time id, encoder.index.valueOf model.value? (.action id) time = some true ↔
      id ∈ plan.actionsAt time) :
    decode encoder.index semantics model last = .ok plan := by
  obtain ⟨decoded, hdecode, hcanonical, -, hdecoded⟩ := hreads.exists_decode hsatisfied hknown
  have hplanCanonical : plan.Canonical :=
    ⟨hplan, fun step hstep => (hsteps step hstep).2.ne_nil,
      fun step hstep => (hsteps step hstep).2.ascending⟩
  rw [hdecode, hcanonical.eq_of_actionsAt_iff hplanCanonical fun time id => ?_]
  rw [hdecoded, hactions]
  refine and_iff_right_of_imp fun hid => ?_
  obtain ⟨step, hstep, rfl, -⟩ := (Plan.mem_actionsAt hplan).mp hid
  exact (hsteps step hstep).1

end Encoder

def VariableIndex.modelOf (index : VariableIndex) (truth : Nat → Bool) : Model :=
  ⟨((List.range index.size).map fun i => truth (i + 1)).toArray⟩

theorem VariableIndex.maxVar_modelOf (index : VariableIndex) (truth : Nat → Bool) :
    (index.modelOf truth).maxVar = index.size := by
  simp [modelOf, Model.maxVar]

theorem VariableIndex.value?_modelOf {index : VariableIndex} {truth : Nat → Bool} {var : Nat}
    (hvar : 0 < var ∧ var ≤ index.size) : (index.modelOf truth).value? var = some (truth var) := by
  have hlt : var - 1 < index.size := by omega
  simp [Model.value?, modelOf, hlt, Nat.sub_add_cancel hvar.1, Nat.ne_of_gt hvar.1]

namespace Encoder

variable {problem : Problem} {semantics : StepSemantics} {last : Nat}
  {encoder : Encoder problem semantics} {clauses : List Clause} {vars : Nat → TransitionVars}
  {plan : Plan}

theorem Reads.valueOf_modelOf (hreads : encoder.Reads last clauses vars)
    {truth : Entity → Nat → Bool} {entity : Entity} {time : Nat} :
    encoder.index.valueOf (encoder.index.modelOf (encoder.index.truthOf truth)).value? entity time =
      some true ↔
        (entity, time) ∈ layout problem semantics last ∧ truth entity time = true := by
  have hindex := hreads.encodedTo.consistent
  rw [← hreads.encodedTo.entries_eq, ← VariableIndex.exists_get?_iff_mem hindex,
    VariableIndex.valueOf_eq_some_iff]
  constructor
  · rintro ⟨var, hget, hvalue⟩
    rw [VariableIndex.value?_modelOf (VariableIndex.get?_bounds hindex hget),
      VariableIndex.truthOf_of_get? hindex hget, Option.some.injEq] at hvalue
    exact ⟨⟨var, hget⟩, hvalue⟩
  · rintro ⟨⟨var, hget⟩, htruth⟩
    refine ⟨var, hget, ?_⟩
    rw [VariableIndex.value?_modelOf (VariableIndex.get?_bounds hindex hget),
      VariableIndex.truthOf_of_get? hindex hget, htruth]

/-- A plan that executes and whose actions may be taken together has a model. -/
theorem Reads.exists_model (hreads : encoder.Reads last clauses vars)
    (hplan : plan.Chronological) (htimes : ∀ step ∈ plan.steps, step.time < last) {final : State}
    (hfinal : plan.simulate problem = .ok final)
    (hallows : ∀ step ∈ plan.steps, semantics.Allows problem fun id => id ∈ step.actions) :
    ∃ model : Model, model.maxVar = encoder.index.size ∧ model.SatisfiesAll clauses ∧
      ∀ time id, encoder.index.valueOf model.value? (.action id) time = some true ↔
        id ∈ plan.actionsAt time := by
  rw [Plan.simulate_eq_stateAt htimes] at hfinal
  refine ⟨encoder.index.modelOf (encoder.index.truthOf (plan.truth problem)),
    VariableIndex.maxVar_modelOf _ _, ?_, fun time id => ?_⟩
  · have hallowsAt : ∀ time < last, semantics.Allows problem fun id => id ∈ plan.actionsAt time := by
      intro time _
      by_cases hstep : ∃ step ∈ plan.steps, step.time = time
      · obtain ⟨step, hstep, rfl⟩ := hstep
        rw [Plan.actionsAt_of_mem hplan hstep]
        exact hallows step hstep
      · have hnil : plan.actionsAt time = [] := by
          rw [List.eq_nil_iff_forall_not_mem]
          intro id hid
          obtain ⟨step, hmem, htime, -⟩ := (Plan.mem_actionsAt hplan).mp hid
          exact hstep ⟨step, hmem, htime⟩
        rw [hnil]
        exact StepSemantics.allows_nil
    rw [Model.satisfiesAll_iff]
    intro clause hclause
    obtain ⟨lit, hlit, hvalue⟩ := hreads.satisfies_truth hplan hfinal hallowsAt clause hclause
    have hpos := Int.natAbs_pos.mpr (clause.nonzero lit hlit)
    refine ⟨lit, hlit, ?_⟩
    rw [VariableIndex.value?_modelOf ⟨hpos, hreads.natAbs_le clause hclause lit hlit⟩]
    exact hvalue
  · rw [hreads.valueOf_modelOf, action_mem_layout, Plan.truth, List.contains_iff_mem]
    refine and_iff_right_of_imp fun hid => ?_
    obtain ⟨step, hstep, rfl, hmem⟩ := (Plan.mem_actionsAt hplan).mp hid
    have htime := htimes step hstep
    obtain ⟨state, hstate⟩ := Plan.exists_stateAt_of_le hplan (Nat.succ_le_of_lt htime) hfinal
    rw [Plan.stateAt_succ hplan] at hstate
    cases hbefore : plan.stateAt problem step.time with
    | error error => simp [hbefore] at hstate
    | ok before =>
        rw [hbefore] at hstate
        obtain ⟨action, hget, -⟩ := (PlanStep.execute_eq_ok_iff.mp hstate).1 id hid
        exact ⟨Problem.lt_actionCount hget, htime⟩

end Encoder

end BoundedPlanning
