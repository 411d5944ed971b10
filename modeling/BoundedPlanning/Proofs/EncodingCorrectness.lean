import BoundedPlanning.Proofs.EncodingSize

namespace BoundedPlanning

variable {problem : Problem} {semantics : StepSemantics} {last : Nat} {clauses : List Clause}
  {encoder : Encoder problem semantics}

theorem Encoder.EncodedTo.valueOf_fact_eq_none (h : encoder.EncodedTo last) {value : Valuation}
    {fact time : Nat} (hfact : ¬ fact < problem.factCount) :
    encoder.index.valueOf value (.fact fact) time = none := by
  have hnone : encoder.index.get? (.fact fact) time = none := by
    rw [VariableIndex.get?_eq_none_iff h.consistent, h.entries_eq, fact_mem_layout]
    exact fun hmem => hfact hmem.1
  rw [VariableIndex.valueOf, hnone, Option.bind_none]

/-- Two lamps that are dark at first, an action that lights each, and the goal that both shine. -/
def lamps : Problem where
  facts := ["left", "right"]
  actions := [⟨"light left", [], [0], [0], []⟩, ⟨"light right", [], [1], [1], []⟩]
  init := State.empty 2
  goal := ⟨[0, 1], []⟩
  actions_inRange := by decide
  actions_normal := by simp [Action.Normal]
  init_size := rfl
  goal_inRange := by decide
  goal_pos_ascending := by decide
  goal_neg_ascending := by decide
  goal_consistent := by decide

def lampsPlan : Plan := ⟨[⟨0, [0, 1]⟩]⟩

theorem simulate_lampsPlan : lampsPlan.simulate lamps = .ok ⟨#[true, true]⟩ := by
  rfl

theorem chronological_lampsPlan : lampsPlan.Chronological :=
  List.pairwise_singleton _ _

theorem legal_lampsPlan :
    ∀ step ∈ lampsPlan.steps, step.time < 1 ∧
      StepSemantics.parallel.Legal lamps step.actions := by
  have hindependent : lamps.Independent 0 1 := by
    rintro a b ⟨⟩ ⟨⟩
    rfl
  intro step hstep
  rw [List.mem_singleton.mp hstep]
  refine ⟨Nat.zero_lt_one, by simp, ?_⟩
  simpa using hindependent

/-- Every model of the clauses decodes to a legal plan that executes; the facts that are true in
the model at a time are those of the state that the plan has reached by then. -/
theorem decode_follows_model
    (hencode : encodeThrough problem semantics last = .ok (clauses, encoder)) {model : Model}
    (hsatisfied : model.SatisfiesAll clauses)
    (hknown : ∀ var ∈ model.trueVars, var ≤ encoder.index.size) :
    ∃ plan final goal,
      decode encoder.index semantics model last = .ok plan ∧
      plan.simulate problem = .ok final ∧
      (∀ time ≤ last, ∃ state, plan.stateAt problem time = .ok state ∧
        state.size = problem.factCount ∧
        ∀ fact, state.holds fact = true ↔
          encoder.index.valueOf model.value? (.fact fact) time = some true) ∧
      (∀ step ∈ plan.steps, step.time < last ∧ semantics.Legal problem step.actions) ∧
      encoder.goalLiterals last = .ok goal ∧
      ((∀ lit ∈ goal, model.satisfies lit = true) → plan.achievesGoal problem = true) := by
  obtain ⟨vars, hreads⟩ := Encoder.exists_reads hencode
  have hvalues := Model.satisfiesAll_iff.mp hsatisfied
  obtain ⟨plan, hdecode, hcanonical, hsteps, hactions⟩ := hreads.exists_decode hsatisfied hknown
  have htimes : ∀ step ∈ plan.steps, step.time < last := fun step hstep => (hsteps step hstep).1
  have htaken : ∀ time < last, ∀ id, id ∈ plan.actionsAt time ↔
      encoder.index.valueOf model.value? (.action id) time = some true := by
    intro time htime id
    rw [hactions, and_iff_right htime]
  obtain ⟨final, hfinal, -⟩ :=
    hreads.exists_stateAt hvalues hcanonical.chronological htaken le_rfl
  obtain ⟨goal, hgoal, -⟩ := hreads.encodedTo.exists_goalLiterals
  refine ⟨plan, final, goal, hdecode, ?_, ?_, hsteps, hgoal, fun hall => ?_⟩
  · rw [Plan.simulate_eq_stateAt htimes, hfinal]
  · intro time htime
    obtain ⟨state, hstate, hsize, hfacts⟩ :=
      hreads.exists_stateAt hvalues hcanonical.chronological htaken htime
    refine ⟨state, hstate, hsize, fun fact => ?_⟩
    by_cases hfact : fact < problem.factCount
    · rw [hfacts fact hfact, Option.some.injEq]
    · rw [hreads.encodedTo.valueOf_fact_eq_none hfact,
        State.holds_eq_false_of_size_le (by omega)]
      simp
  · refine (hreads.goal_iff hvalues hcanonical.chronological htimes htaken hgoal).mp ?_
    intro lit hlit
    exact ⟨lit, List.mem_singleton_self lit, Model.satisfies_iff.mp (hall lit hlit)⟩

theorem decode_follows_model_lamps :
    ∃ clauses encoder model plan final,
      encodeThrough lamps .parallel 1 = .ok (clauses, encoder) ∧
      Model.SatisfiesAll model clauses ∧
      (∀ var ∈ model.trueVars, var ≤ encoder.index.size) ∧
      decode encoder.index .parallel model 1 = .ok plan ∧
      plan.simulate lamps = .ok final := by
  obtain ⟨clauses, encoder, hencode⟩ :=
    Encoder.exists_encodeThrough_eq_ok
      (show lamps.variablesThrough .parallel 1 ≤ variableRoom by decide)
  obtain ⟨vars, hreads⟩ := Encoder.exists_reads hencode
  obtain ⟨model, hmaxVar, hsatisfied, -⟩ := hreads.exists_model chronological_lampsPlan
    (fun step hstep => (legal_lampsPlan step hstep).1) simulate_lampsPlan
    fun step hstep => (legal_lampsPlan step hstep).2.allows
  have hknown : ∀ var ∈ model.trueVars, var ≤ encoder.index.size := by
    intro var hvar
    rw [← hmaxVar]
    exact Model.le_maxVar_of_mem_trueVars hvar
  obtain ⟨plan, final, goal, hdecode, hfinal, -⟩ := decode_follows_model hencode hsatisfied hknown
  exact ⟨clauses, encoder, model, plan, final, hencode, hsatisfied, hknown, hdecode, hfinal⟩

/-- Every legal plan that executes is decoded from a model of the clauses, and all values that
satisfy the clauses with its actions are those of the states it goes through. -/
theorem plan_has_model
    (hencode : encodeThrough problem semantics last = .ok (clauses, encoder)) {plan : Plan}
    {final : State} (hplan : plan.Chronological)
    (hsteps : ∀ step ∈ plan.steps, step.time < last ∧ semantics.Legal problem step.actions)
    (hsimulate : plan.simulate problem = .ok final) :
    (∃ model : Model, model.maxVar = encoder.index.size ∧ model.SatisfiesAll clauses ∧
      (∀ time id, encoder.index.valueOf model.value? (.action id) time = some true ↔
        id ∈ plan.actionsAt time) ∧
      decode encoder.index semantics model last = .ok plan) ∧
    ∀ value : Valuation, (∀ clause ∈ clauses, value.Satisfies clause.literals) →
      (∀ time id, encoder.index.valueOf value (.action id) time = some true ↔
        id ∈ plan.actionsAt time) →
      (∀ time ≤ last, ∃ state, plan.stateAt problem time = .ok state ∧
        ∀ fact < problem.factCount,
          encoder.index.valueOf value (.fact fact) time = some (state.holds fact)) ∧
      ∃ goal, encoder.goalLiterals last = .ok goal ∧
        ((∀ lit ∈ goal, value.Satisfies [lit]) ↔ plan.achievesGoal problem = true) := by
  obtain ⟨vars, hreads⟩ := Encoder.exists_reads hencode
  have htimes : ∀ step ∈ plan.steps, step.time < last := fun step hstep => (hsteps step hstep).1
  constructor
  · obtain ⟨model, hmaxVar, hsatisfied, hactions⟩ := hreads.exists_model hplan htimes hsimulate
      fun step hstep => (hsteps step hstep).2.allows
    have hknown : ∀ var ∈ model.trueVars, var ≤ encoder.index.size := by
      intro var hvar
      rw [← hmaxVar]
      exact Model.le_maxVar_of_mem_trueVars hvar
    obtain ⟨decoded, hdecode, hcanonical, -, hdecoded⟩ := hreads.exists_decode hsatisfied hknown
    refine ⟨model, hmaxVar, hsatisfied, hactions, ?_⟩
    have hplanCanonical : plan.Canonical :=
      ⟨hplan, fun step hstep => (hsteps step hstep).2.ne_nil,
        fun step hstep => (hsteps step hstep).2.ascending⟩
    rw [hdecode, hcanonical.eq_of_actionsAt_iff hplanCanonical fun time id => ?_]
    rw [hdecoded, hactions]
    refine and_iff_right_of_imp fun hid => ?_
    obtain ⟨step, hstep, rfl, -⟩ := (Plan.mem_actionsAt hplan).mp hid
    exact htimes step hstep
  · intro value hvalues hactions
    have htaken : ∀ time < last, ∀ id, id ∈ plan.actionsAt time ↔
        encoder.index.valueOf value (.action id) time = some true :=
      fun time _ id => (hactions time id).symm
    constructor
    · intro time htime
      obtain ⟨state, hstate, -, hfacts⟩ := hreads.exists_stateAt hvalues hplan htaken htime
      exact ⟨state, hstate, hfacts⟩
    · obtain ⟨goal, hgoal, -⟩ := hreads.encodedTo.exists_goalLiterals
      exact ⟨goal, hgoal, hreads.goal_iff hvalues hplan htimes htaken hgoal⟩

theorem plan_has_model_lamps :
    ∃ clauses encoder model,
      encodeThrough lamps .parallel 1 = .ok (clauses, encoder) ∧
      Model.SatisfiesAll model clauses ∧
      decode encoder.index .parallel model 1 = .ok lampsPlan := by
  obtain ⟨clauses, encoder, hencode⟩ :=
    Encoder.exists_encodeThrough_eq_ok
      (show lamps.variablesThrough .parallel 1 ≤ variableRoom by decide)
  obtain ⟨⟨model, -, hsatisfied, -, hdecode⟩, -⟩ :=
    plan_has_model hencode chronological_lampsPlan legal_lampsPlan simulate_lampsPlan
  exact ⟨clauses, encoder, model, hencode, hsatisfied, hdecode⟩

end BoundedPlanning
