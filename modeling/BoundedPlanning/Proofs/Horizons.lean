import BoundedPlanning.Planner.Loop
import BoundedPlanning.Proofs.EncodingSize

namespace BoundedPlanning

/-- What the actions of a step may be at all: one, or any number of which no two different ones
interfere. -/
def StepSemantics.Permits (semantics : StepSemantics) (problem : Problem) (actions : List Nat) :
    Prop :=
  match semantics with
  | .sequential => ∃ id, actions = [id]
  | .parallel => ∀ i ∈ actions, ∀ j ∈ actions, i ≠ j → problem.Independent i j

def Problem.Reaches (problem : Problem) (semantics : StepSemantics) (horizon : Nat) : Prop :=
  ∃ plan : Plan, plan.Chronological ∧
    (∀ step ∈ plan.steps, step.time < horizon ∧ semantics.Permits problem step.actions) ∧
    plan.achievesGoal problem = true

theorem StepSemantics.Permits.allows {semantics : StepSemantics} {problem : Problem}
    {actions : List Nat} (h : semantics.Permits problem actions) :
    semantics.Allows problem fun id => id ∈ actions := by
  cases semantics with
  | sequential => exact Legal.allows h
  | parallel => exact fun i j a b hne hi hj ha hb => h i hi j hj hne a b ha hb

theorem StepSemantics.Legal.permits {semantics : StepSemantics} {problem : Problem}
    {actions : List Nat} (h : semantics.Legal problem actions) :
    semantics.Permits problem actions := by
  cases semantics with
  | sequential => exact h
  | parallel =>
      have hallows := h.allows
      exact fun i hi j hj hne a b ha hb => hallows i j a b hne hi hj ha hb

theorem Problem.reaches_of_legal {problem : Problem} {semantics : StepSemantics} {horizon : Nat}
    {plan : Plan} (hplan : plan.Chronological)
    (hsteps : ∀ step ∈ plan.steps, step.time < horizon ∧ semantics.Legal problem step.actions)
    (hachieves : plan.achievesGoal problem = true) : problem.Reaches semantics horizon :=
  ⟨plan, hplan, fun step hstep => ⟨(hsteps step hstep).1, (hsteps step hstep).2.permits⟩,
    hachieves⟩

theorem Problem.Reaches.mono {problem : Problem} {semantics : StepSemantics}
    {horizon later : Nat} (h : problem.Reaches semantics horizon) (hle : horizon ≤ later) :
    problem.Reaches semantics later := by
  obtain ⟨plan, hplan, hsteps, hgoal⟩ := h
  exact ⟨plan, hplan, fun step hstep =>
    ⟨(hsteps step hstep).1.trans_le hle, (hsteps step hstep).2⟩, hgoal⟩

theorem Plan.achievesGoal_iff {plan : Plan} {problem : Problem} :
    plan.achievesGoal problem = true ↔
      ∃ final, plan.simulate problem = .ok final ∧ problem.goal.isSatisfiedBy final = true := by
  unfold Plan.achievesGoal
  cases plan.simulate problem with
  | error error => simp
  | ok state => simp

theorem Problem.reaches_zero_iff {problem : Problem} {semantics : StepSemantics} :
    problem.Reaches semantics 0 ↔ problem.goal.isSatisfiedBy problem.init = true := by
  constructor
  · rintro ⟨⟨steps⟩, -, hsteps, hachieves⟩
    cases steps with
    | nil => exact hachieves
    | cons step rest => exact absurd (hsteps step List.mem_cons_self).1 (Nat.not_lt_zero _)
  · intro hinit
    exact ⟨⟨[]⟩, List.Pairwise.nil, by simp, hinit⟩

section Models

variable {problem : Problem} {semantics : StepSemantics} {last : Nat} {clauses : List Clause}
  {encoder : Encoder problem semantics} {goal : List Int}

theorem satisfies_map_literals_iff {value : Valuation} :
    (∀ lits ∈ clauses.map Clause.literals, value.Satisfies lits) ↔
      ∀ clause ∈ clauses, value.Satisfies clause.literals :=
  List.forall_mem_map

theorem exists_acceptModel_eq_ok
    (hencode : encodeThrough problem semantics last = .ok (clauses, encoder))
    (hgoal : encoder.goalLiterals last = .ok goal) {model : Model}
    (hmodels : Valuation.Models model.value? (clauses.map Clause.literals) goal)
    (hknown : ∀ var ∈ model.trueVars, var ≤ encoder.index.size) :
    ∃ plan, acceptModel encoder model last = .ok plan ∧ plan.Chronological ∧
      (∀ step ∈ plan.steps, step.time < last ∧ semantics.Legal problem step.actions) ∧
      plan.achievesGoal problem = true := by
  obtain ⟨vars, hreads⟩ := Encoder.exists_reads hencode
  have hvalues := satisfies_map_literals_iff.mp hmodels.1
  obtain ⟨plan, hdecode, hcanonical, hsteps, hactions⟩ :=
    hreads.exists_decode (Model.satisfiesAll_iff.mpr hvalues) hknown
  have htaken : ∀ time < last, ∀ id, id ∈ plan.actionsAt time ↔
      encoder.index.valueOf model.value? (.action id) time = some true := by
    intro time htime id
    rw [hactions, and_iff_right htime]
  have hachieves := (hreads.goal_iff hvalues hcanonical.chronological
    (fun step hstep => (hsteps step hstep).1) htaken hgoal).mp hmodels.2
  obtain ⟨final, hfinal, hsatisfied⟩ := Plan.achievesGoal_iff.mp hachieves
  refine ⟨plan, ?_, hcanonical.chronological, hsteps, hachieves⟩
  simp only [acceptModel, hdecode, hfinal, hsatisfied, Except.mapError, bind, Except.bind, if_true]
  rfl

theorem decode_of_acceptModel {model : Model} {plan : Plan}
    (h : acceptModel encoder model last = .ok plan) :
    decode encoder.index semantics model last = .ok plan := by
  obtain ⟨decoded, hdecode, h⟩ := except_bind_eq_ok h
  obtain ⟨reached, -, h⟩ := except_bind_eq_ok h
  split at h
  · cases h
    cases hresult : decode encoder.index semantics model last with
    | error error => simp [hresult, Except.mapError] at hdecode
    | ok found =>
        rw [hresult] at hdecode
        exact congrArg Except.ok (Except.ok.inj hdecode)
  · cases h

theorem exists_models_of_reaches
    (hencode : encodeThrough problem semantics last = .ok (clauses, encoder))
    (hgoal : encoder.goalLiterals last = .ok goal) (h : problem.Reaches semantics last) :
    ∃ value : Valuation, value.Models (clauses.map Clause.literals) goal := by
  obtain ⟨plan, hplan, hsteps, hachieves⟩ := h
  obtain ⟨vars, hreads⟩ := Encoder.exists_reads hencode
  obtain ⟨final, hfinal, -⟩ := Plan.achievesGoal_iff.mp hachieves
  have htimes : ∀ step ∈ plan.steps, step.time < last := fun step hstep => (hsteps step hstep).1
  obtain ⟨model, -, hsatisfied, hactions⟩ := hreads.exists_model hplan htimes hfinal
    fun step hstep => (hsteps step hstep).2.allows
  have hvalues := Model.satisfiesAll_iff.mp hsatisfied
  refine ⟨model.value?, satisfies_map_literals_iff.mpr hvalues, ?_⟩
  exact (hreads.goal_iff hvalues hplan htimes (fun time _ id => (hactions time id).symm)
    hgoal).mpr hachieves

/-- Taking no action at all satisfies the clauses. -/
theorem exists_idle_model
    (hencode : encodeThrough problem semantics last = .ok (clauses, encoder)) :
    ∃ value : Valuation, ∀ clause ∈ clauses, value.Satisfies clause.literals := by
  obtain ⟨vars, hreads⟩ := Encoder.exists_reads hencode
  have hidle : (Plan.mk []).simulate problem = .ok problem.init := rfl
  obtain ⟨model, -, hsatisfied, -⟩ :=
    hreads.exists_model List.Pairwise.nil (by simp) hidle (by simp)
  exact ⟨model.value?, Model.satisfiesAll_iff.mp hsatisfied⟩

/-- Some truth assignment satisfies all clauses of the steps 0 to the horizon and makes the goal
literals there true. -/
def Problem.SatisfiableAt (problem : Problem) (semantics : StepSemantics) (horizon : Nat) : Prop :=
  ∃ (clauses : List Clause) (encoder : Encoder problem semantics) (goal : List Int)
    (truth : Nat → Bool),
    encodeThrough problem semantics horizon = .ok (clauses, encoder) ∧
      encoder.goalLiterals horizon = .ok goal ∧
      (Valuation.total truth).Models (clauses.map Clause.literals) goal

/-- The model of a truth assignment satisfies the clauses and the goal literals as well. -/
theorem models_modelOf (hencode : encodeThrough problem semantics last = .ok (clauses, encoder))
    (hgoal : encoder.goalLiterals last = .ok goal) {truth : Nat → Bool}
    (h : (Valuation.total truth).Models (clauses.map Clause.literals) goal) :
    Valuation.Models (encoder.index.modelOf truth).value? (clauses.map Clause.literals) goal := by
  obtain ⟨vars, hreads⟩ := Encoder.exists_reads hencode
  have hvalue : ∀ lit : Int, lit ≠ 0 ∧ lit.natAbs ≤ encoder.index.size →
      Valuation.total truth lit.natAbs = some (decide (0 < lit)) →
      (encoder.index.modelOf truth).value? lit.natAbs = some (decide (0 < lit)) := by
    intro lit hlit htruth
    rw [VariableIndex.value?_modelOf ⟨Int.natAbs_pos.mpr hlit.1, hlit.2⟩]
    exact htruth
  constructor
  · rw [satisfies_map_literals_iff]
    intro clause hclause
    obtain ⟨lit, hlit, htruth⟩ := satisfies_map_literals_iff.mp h.1 clause hclause
    have hrange := hreads.natAbs_le clause hclause lit hlit
    exact ⟨lit, hlit, hvalue lit ⟨clause.nonzero lit hlit, hrange⟩ htruth⟩
  · obtain ⟨known, hknown, hrange, -⟩ := hreads.encodedTo.exists_goalLiterals
    rw [hgoal] at hknown
    cases hknown
    intro lit hlit
    rw [Valuation.satisfies_singleton_iff]
    exact hvalue lit (hrange lit hlit) (Valuation.satisfies_singleton_iff.mp (h.2 lit hlit))

theorem satisfiableAt_iff_reaches (hencodes : problem.Encodes semantics last) :
    problem.SatisfiableAt semantics last ↔ problem.Reaches semantics last := by
  constructor
  · rintro ⟨clauses, encoder, goal, truth, hencode, hgoal, hmodels⟩
    have hknown := Model.trueVars_le (encoder.index.maxVar_modelOf truth)
    obtain ⟨plan, -, hplan, hsteps, hachieves⟩ :=
      exists_acceptModel_eq_ok hencode hgoal (models_modelOf hencode hgoal hmodels) hknown
    exact Problem.reaches_of_legal hplan hsteps hachieves
  · intro hreaches
    obtain ⟨clauses, encoder, hencode⟩ := hencodes
    obtain ⟨vars, hreads⟩ := Encoder.exists_reads hencode
    obtain ⟨goal, hgoal, -⟩ := hreads.encodedTo.exists_goalLiterals
    obtain ⟨value, hvalue⟩ := exists_models_of_reaches hencode hgoal hreaches
    exact ⟨clauses, encoder, goal, fun var => (value var).getD false, hencode, hgoal,
      fun clause hclause => (hvalue.1 clause hclause).getD,
      fun lit hlit => (hvalue.2 lit hlit).getD⟩

end Models

end BoundedPlanning
