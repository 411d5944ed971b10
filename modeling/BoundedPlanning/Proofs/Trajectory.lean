import BoundedPlanning.Proofs.EncodedSteps
import BoundedPlanning.Proofs.Execution

/-!
Transitions as execution steps, in both directions: truth values that obey the transition are those
of an executed step, and an executed step has truth values that obey it.
-/

namespace BoundedPlanning

namespace PlanStep

variable {problem : Problem} {state next : State} {step : PlanStep}

theorem mem_filterMap_action? {action : Action} :
    action ∈ step.actions.filterMap problem.action? ↔
      ∃ id ∈ step.actions, problem.action? id = some action :=
  List.mem_filterMap

/-- After a step a fact holds if the step adds it, or if it held and no action makes it false. -/
theorem holds_of_execute (h : step.execute problem state = .ok next) (fact : Nat) :
    next.holds fact = true ↔
      fact < state.size ∧ ((∃ id ∈ step.actions, id ∈ problem.adders fact) ∨
        state.holds fact = true ∧ ∀ id ∈ step.actions, id ∉ problem.deleters fact) := by
  obtain ⟨-, rfl⟩ := execute_eq_ok_iff.mp h
  rw [holds_applyAll]
  refine and_congr_right fun _ => ?_
  have hadd : (∃ action ∈ step.actions.filterMap problem.action?, fact ∈ action.add) ↔
      ∃ id ∈ step.actions, id ∈ problem.adders fact := by
    simp only [mem_filterMap_action?, Problem.mem_adders]
    constructor
    · rintro ⟨action, ⟨id, hid, hget⟩, hfact⟩
      exact ⟨id, hid, action, hget, hfact⟩
    · rintro ⟨id, hid, action, hget, hfact⟩
      exact ⟨action, ⟨id, hid, hget⟩, hfact⟩
  rw [hadd]
  by_cases hadded : ∃ id ∈ step.actions, id ∈ problem.adders fact
  · simp [hadded]
  · rw [or_iff_right hadded, or_iff_right hadded]
    refine and_congr_right fun _ => ?_
    constructor
    · intro hdel id hid hdeletes
      obtain ⟨action, hget, hdeletes⟩ := Problem.mem_deleters.mp hdeletes
      exact hdel action (mem_filterMap_action?.mpr ⟨id, hid, hget⟩)
        (Action.deletes_iff.mp hdeletes).1
    · intro hdeletes action haction hdel
      obtain ⟨id, hid, hget⟩ := mem_filterMap_action?.mp haction
      refine hdeletes id hid (Problem.mem_deleters.mpr ⟨action, hget, ?_⟩)
      refine Action.deletes_iff.mpr ⟨hdel, fun hfact => hadded ?_⟩
      exact ⟨id, hid, Problem.mem_adders.mpr ⟨action, hget, hfact⟩⟩

theorem isApplicable_of_execute (h : step.execute problem state = .ok next) {id : Nat}
    {action : Action} (hid : id ∈ step.actions) (hget : problem.action? id = some action) :
    action.isApplicable state = true := by
  obtain ⟨found, hfound, happlicable⟩ := (execute_eq_ok_iff.mp h).1 id hid
  rw [hget, Option.some.injEq] at hfound
  rwa [hfound]

theorem holds_of_added (h : step.execute problem state = .ok next) {fact id : Nat}
    (hfact : fact < state.size) (hid : id ∈ step.actions) (hadds : id ∈ problem.adders fact) :
    next.holds fact = true :=
  (holds_of_execute h fact).mpr ⟨hfact, Or.inl ⟨id, hid, hadds⟩⟩

theorem not_holds_of_deleted (h : step.execute problem state = .ok next) {fact id : Nat}
    (hadded : ∀ id ∈ step.actions, id ∉ problem.adders fact) (hid : id ∈ step.actions)
    (hdeletes : id ∈ problem.deleters fact) : next.holds fact = false := by
  rw [← Bool.not_eq_true, holds_of_execute h]
  rintro ⟨-, ⟨other, hother, hadds⟩ | ⟨-, hdeleted⟩⟩
  · exact hadded other hother hadds
  · exact hdeleted id hid hdeletes

theorem holds_eq_of_untouched (h : step.execute problem state = .ok next) {fact : Nat}
    (hfact : fact < state.size) (hadded : ∀ id ∈ step.actions, id ∉ problem.adders fact)
    (hdeleted : ∀ id ∈ step.actions, id ∉ problem.deleters fact) :
    next.holds fact = state.holds fact := by
  rw [Bool.eq_iff_iff, holds_of_execute h, and_iff_right hfact]
  constructor
  · rintro (⟨id, hid, hadds⟩ | ⟨hstate, -⟩)
    · exact absurd hadds (hadded id hid)
    · exact hstate
  · exact fun hstate => Or.inr ⟨hstate, hdeleted⟩

theorem exists_adder_of_gained (h : step.execute problem state = .ok next) {fact : Nat}
    (hstate : state.holds fact = false) (hnext : next.holds fact = true) :
    ∃ id ∈ step.actions, id ∈ problem.adders fact := by
  obtain ⟨-, hadded | ⟨hholds, -⟩⟩ := (holds_of_execute h fact).mp hnext
  · exact hadded
  · rw [hstate] at hholds
    cases hholds

theorem exists_deleter_of_lost (h : step.execute problem state = .ok next) {fact : Nat}
    (hfact : fact < state.size) (hstate : state.holds fact = true)
    (hnext : next.holds fact = false) : ∃ id ∈ step.actions, id ∈ problem.deleters fact := by
  by_contra hnone
  rw [← Bool.not_eq_true, holds_of_execute h] at hnext
  refine hnext ⟨hfact, Or.inr ⟨hstate, fun id hid hdeletes => ?_⟩⟩
  exact hnone ⟨id, hid, hdeletes⟩

end PlanStep

/-- Actions that may be taken together do not both add and make false a fact. -/
theorem StepSemantics.Allows.not_mem_deleters {semantics : StepSemantics} {problem : Problem}
    {taken : Nat → Prop} (h : semantics.Allows problem taken) {i j fact : Nat} (hi : taken i)
    (hj : taken j) (hadds : i ∈ problem.adders fact) : j ∉ problem.deleters fact := by
  intro hdeletes
  obtain ⟨a, ha, hadd⟩ := Problem.mem_adders.mp hadds
  obtain ⟨b, hb, hdel⟩ := Problem.mem_deleters.mp hdeletes
  by_cases heq : i = j
  · subst heq
    rw [ha, Option.some.injEq] at hb
    subst hb
    exact (Action.deletes_iff.mp hdel).2 hadd
  · cases semantics with
    | sequential => exact heq (h i j hi hj)
    | parallel =>
        have hclobbers : a.clobbers b = true :=
          Action.clobbers_iff.mpr (Or.inr ⟨fact, hadd, Or.inr (Or.inr hdel)⟩)
        have hfree := h i j a b heq hi hj ha hb
        rw [Action.interferesWith, hclobbers, Bool.true_or] at hfree
        cases hfree

namespace TransitionVars

variable {problem : Problem} {semantics : StepSemantics} {vars : TransitionVars}
  {value : Valuation} {state next : State} {step : PlanStep}

theorem Obeys.isApplicable (hobeys : vars.Obeys problem value)
    (hbefore : ∀ fact < problem.factCount, value (vars.factBefore fact) = some (state.holds fact))
    {id : Nat} {action : Action} (hget : problem.action? id = some action)
    (htaken : value (vars.action id) = some true) : action.isApplicable state = true := by
  have hnot : value (vars.action id) ≠ some false := by
    rw [htaken]
    simp
  have hrange : ∀ fact ∈ action.facts, fact < problem.factCount :=
    problem.actions_inRange action (List.mem_of_getElem? hget)
  refine Action.isApplicable_iff.mpr ⟨?_, ?_⟩
  · intro fact hfact
    have hvalue := (hobeys.pre id action hget fact hfact).resolve_left hnot
    rw [hbefore fact (hrange fact (Action.mem_facts_iff.mpr (Or.inl hfact)))] at hvalue
    exact Option.some.inj hvalue
  · intro fact hfact
    have hvalue := (hobeys.preNeg id action hget fact hfact).resolve_left hnot
    rw [hbefore fact (hrange fact (Action.mem_facts_iff.mpr (Or.inr (Or.inl hfact))))] at hvalue
    exact Option.some.inj hvalue

/-- What the frame axioms are for. -/
theorem Obeys.factAfter_of_untouched (hobeys : vars.Obeys problem value) {fact : Nat}
    (hfact : fact < problem.factCount) {truth : Bool}
    (hbefore : value (vars.factBefore fact) = some truth)
    (hadded : ∀ id ∈ problem.adders fact, value (vars.action id) ≠ some true)
    (hdeleted : ∀ id ∈ problem.deleters fact, value (vars.action id) ≠ some true) :
    value (vars.factAfter fact) = some truth := by
  cases truth with
  | true =>
      rcases hobeys.staysTrue fact hfact with hvalue | hvalue | ⟨id, hdeletes, hvalue⟩
      · rw [hbefore] at hvalue
        cases hvalue
      · exact hvalue
      · exact absurd hvalue (hdeleted id hdeletes)
  | false =>
      rcases hobeys.staysFalse fact hfact with hvalue | hvalue | ⟨id, hadds, hvalue⟩
      · rw [hbefore] at hvalue
        cases hvalue
      · exact hvalue
      · exact absurd hvalue (hadded id hadds)

theorem execute_of_obeys (hobeys : vars.Obeys problem value)
    (hsize : state.size = problem.factCount)
    (hbefore : ∀ fact < problem.factCount, value (vars.factBefore fact) = some (state.holds fact))
    (htaken : ∀ id, id ∈ step.actions ↔
      id < problem.actionCount ∧ value (vars.action id) = some true) :
    ∃ next, step.execute problem state = .ok next ∧ next.size = problem.factCount ∧
      ∀ fact < problem.factCount, value (vars.factAfter fact) = some (next.holds fact) := by
  have happlicable : ∀ id ∈ step.actions, ∃ action, problem.action? id = some action ∧
      action.isApplicable state = true := by
    intro id hid
    obtain ⟨hrange, hvalue⟩ := (htaken id).mp hid
    obtain ⟨action, hget⟩ := Problem.exists_action? hrange
    exact ⟨action, hget, hobeys.isApplicable hbefore hget hvalue⟩
  have hnot : ∀ id ∈ step.actions, value (vars.action id) ≠ some false := by
    intro id hid
    rw [((htaken id).mp hid).2]
    simp
  obtain ⟨next, hnext⟩ : ∃ next, step.execute problem state = .ok next :=
    ⟨_, PlanStep.execute_eq_ok_iff.mpr ⟨happlicable, rfl⟩⟩
  refine ⟨next, hnext, (PlanStep.size_of_execute hnext).trans hsize, fun fact hfact => ?_⟩
  have hdeclared : fact < state.size := by
    rw [hsize]
    exact hfact
  -- Adding comes first, then deleting; a fact that no action changes is left to the frame.
  by_cases hadded : ∃ id ∈ step.actions, id ∈ problem.adders fact
  · obtain ⟨id, hid, hadds⟩ := hadded
    obtain ⟨action, hget, hadd⟩ := Problem.mem_adders.mp hadds
    rw [PlanStep.holds_of_added hnext hdeclared hid hadds]
    exact (hobeys.add id action hget fact hadd).resolve_left (hnot id hid)
  have hunadded : ∀ id ∈ step.actions, id ∉ problem.adders fact :=
    fun id hid hadds => hadded ⟨id, hid, hadds⟩
  by_cases hdeleted : ∃ id ∈ step.actions, id ∈ problem.deleters fact
  · obtain ⟨id, hid, hdeletes⟩ := hdeleted
    obtain ⟨action, hget, hdel⟩ := Problem.mem_deleters.mp hdeletes
    rw [PlanStep.not_holds_of_deleted hnext hunadded hid hdeletes]
    exact (hobeys.del id action hget fact (Action.mem_effectiveDel.mpr hdel)).resolve_left
      (hnot id hid)
  have hundeleted : ∀ id ∈ step.actions, id ∉ problem.deleters fact :=
    fun id hid hdeletes => hdeleted ⟨id, hid, hdeletes⟩
  rw [PlanStep.holds_eq_of_untouched hnext hdeclared hunadded hundeleted]
  refine hobeys.factAfter_of_untouched hfact (hbefore fact hfact) ?_ ?_
  · intro id hadds hvalue
    obtain ⟨action, hget, -⟩ := Problem.mem_adders.mp hadds
    exact hunadded id ((htaken id).mpr ⟨Problem.lt_actionCount hget, hvalue⟩) hadds
  · intro id hdeletes hvalue
    obtain ⟨action, hget, -⟩ := Problem.mem_deleters.mp hdeletes
    exact hundeleted id ((htaken id).mpr ⟨Problem.lt_actionCount hget, hvalue⟩) hdeletes

theorem obeys_of_execute {truth : Nat → Bool} (hstep : step.execute problem state = .ok next)
    (hsize : state.size = problem.factCount)
    (hallows : semantics.Allows problem fun id => id ∈ step.actions)
    (haction : ∀ id < problem.actionCount,
      (truth (vars.action id) = true ↔ id ∈ step.actions))
    (hbefore : ∀ fact < problem.factCount, truth (vars.factBefore fact) = state.holds fact)
    (hafter : ∀ fact < problem.factCount, truth (vars.factAfter fact) = next.holds fact) :
    vars.Obeys problem (Valuation.total truth) := by
  have htaken : ∀ id action, problem.action? id = some action → id ∈ step.actions →
      Valuation.total truth (vars.action id) = some true := by
    intro id action hget hid
    rw [Valuation.total, (haction id (Problem.lt_actionCount hget)).mpr hid]
  have hcases : ∀ id action, problem.action? id = some action → ∀ other result,
      (id ∈ step.actions → truth other = result) →
        Valuation.total truth (vars.action id) = some false ∨
          Valuation.total truth other = some result := by
    intro id action hget other result himplies
    cases hvalue : truth (vars.action id) with
    | false => exact Or.inl (congrArg some hvalue)
    | true =>
        have hid := (haction id (Problem.lt_actionCount hget)).mp hvalue
        exact Or.inr (congrArg some (himplies hid))
  have hrange : ∀ id action, problem.action? id = some action → ∀ fact ∈ action.facts,
      fact < problem.factCount := fun id action hget =>
    problem.actions_inRange action (List.mem_of_getElem? hget)
  constructor
  · intro id action hget fact hfact
    refine hcases id action hget _ _ fun hid => ?_
    rw [hbefore fact (hrange id action hget fact (Action.mem_facts_iff.mpr (Or.inl hfact)))]
    have happlicable := PlanStep.isApplicable_of_execute hstep hid hget
    exact (Action.isApplicable_iff.mp happlicable).1 fact hfact
  · intro id action hget fact hfact
    refine hcases id action hget _ _ fun hid => ?_
    rw [hbefore fact
      (hrange id action hget fact (Action.mem_facts_iff.mpr (Or.inr (Or.inl hfact))))]
    have happlicable := PlanStep.isApplicable_of_execute hstep hid hget
    exact (Action.isApplicable_iff.mp happlicable).2 fact hfact
  · intro id action hget fact hfact
    refine hcases id action hget _ _ fun hid => ?_
    have hdeclared := hrange id action hget fact
      (Action.mem_facts_iff.mpr (Or.inr (Or.inr (Or.inl hfact))))
    rw [hafter fact hdeclared]
    exact PlanStep.holds_of_added hstep (hsize ▸ hdeclared) hid
      (Problem.mem_adders.mpr ⟨action, hget, hfact⟩)
  · intro id action hget fact hfact
    refine hcases id action hget _ _ fun hid => ?_
    have hdeletes : id ∈ problem.deleters fact :=
      Problem.mem_deleters.mpr ⟨action, hget, Action.mem_effectiveDel.mp hfact⟩
    have hdeclared := hrange id action hget fact (Action.mem_facts_iff.mpr (Or.inr (Or.inr
      (Or.inr (Action.deletes_iff.mp (Action.mem_effectiveDel.mp hfact)).1))))
    rw [hafter fact hdeclared]
    refine PlanStep.not_holds_of_deleted hstep (fun other hother hadds => ?_) hid hdeletes
    exact hallows.not_mem_deleters hother hid hadds hdeletes
  · intro fact hfact
    simp only [Valuation.total, Option.some.injEq, hbefore fact hfact, hafter fact hfact]
    cases hstate : state.holds fact with
    | false => exact Or.inl rfl
    | true =>
        cases hnext : next.holds fact with
        | true => exact Or.inr (Or.inl rfl)
        | false =>
            obtain ⟨id, hid, hdeletes⟩ :=
              PlanStep.exists_deleter_of_lost hstep (hsize ▸ hfact) hstate hnext
            obtain ⟨action, hget, -⟩ := Problem.mem_deleters.mp hdeletes
            exact Or.inr (Or.inr ⟨id, hdeletes, Option.some.inj (htaken id action hget hid)⟩)
  · intro fact hfact
    simp only [Valuation.total, Option.some.injEq, hbefore fact hfact, hafter fact hfact]
    cases hstate : state.holds fact with
    | true => exact Or.inl rfl
    | false =>
        cases hnext : next.holds fact with
        | false => exact Or.inr (Or.inl rfl)
        | true =>
            obtain ⟨id, hid, hadds⟩ := PlanStep.exists_adder_of_gained hstep hstate hnext
            obtain ⟨action, hget, -⟩ := Problem.mem_adders.mp hadds
            exact Or.inr (Or.inr ⟨id, hadds, Option.some.inj (htaken id action hget hid)⟩)

end TransitionVars

namespace VariableIndex

/-- The value of a variable when each entity has a truth value at each step. -/
def truthOf (index : VariableIndex) (truth : Entity → Nat → Bool) (var : Nat) : Bool :=
  match index.entityOf var with
  | .ok (entity, step) => truth entity step
  | .error _ => false

theorem truthOf_of_get? {index : VariableIndex} (hindex : index.Consistent)
    {truth : Entity → Nat → Bool} {entity : Entity} {step var : Nat}
    (h : index.get? entity step = some var) : index.truthOf truth var = truth entity step := by
  rw [truthOf, (entityOf_eq_ok_iff_get? hindex).mpr h]

end VariableIndex

namespace Encoder

variable {problem : Problem} {semantics : StepSemantics} {last : Nat}
  {encoder : Encoder problem semantics} {clauses : List Clause} {vars : Nat → TransitionVars}
  {value : Valuation} {plan : Plan}

theorem Reads.obeys (hreads : encoder.Reads last clauses vars)
    (hsatisfied : ∀ clause ∈ clauses, value.Satisfies clause.literals) {time : Nat}
    (htime : time < last) : (vars time).Obeys problem value := by
  have hall := ((hreads.satisfied_iff value).mp hsatisfied).2 time htime
  rw [TransitionVars.clauses, List.forall_mem_append] at hall
  exact (TransitionVars.obeys_iff hreads.encodedTo.consistent (hreads.readFrom time htime)).mp hall.1

theorem Reads.valueOf_action_iff (hreads : encoder.Reads last clauses vars) {time id : Nat}
    (htime : time < last) :
    encoder.index.valueOf value (.action id) time = some true ↔
      id < problem.actionCount ∧ value ((vars time).action id) = some true := by
  rw [VariableIndex.valueOf_eq_some_iff]
  constructor
  · rintro ⟨var, hget, hvalue⟩
    have hid : id < problem.actionCount := by
      have hmem := (VariableIndex.exists_get?_iff_mem hreads.encodedTo.consistent).mp ⟨var, hget⟩
      rw [hreads.encodedTo.entries_eq] at hmem
      exact (action_mem_layout.mp hmem).1
    rw [(hreads.readFrom time htime).action id hid, Option.some.injEq] at hget
    exact ⟨hid, hget ▸ hvalue⟩
  · rintro ⟨hid, hvalue⟩
    exact ⟨_, (hreads.readFrom time htime).action id hid, hvalue⟩

theorem Reads.allows (hreads : encoder.Reads last clauses vars)
    (hsatisfied : ∀ clause ∈ clauses, value.Satisfies clause.literals) {time : Nat}
    (htime : time < last) :
    semantics.Allows problem fun id =>
      encoder.index.valueOf value (.action id) time = some true := by
  have hall := ((hreads.satisfied_iff value).mp hsatisfied).2 time htime
  rw [TransitionVars.clauses, List.forall_mem_append] at hall
  have hallows := TransitionVars.allows_of_satisfies_exclusion hreads.encodedTo.consistent
    (hreads.readFrom time htime) hall.2
  simpa only [hreads.valueOf_action_iff htime] using hallows

/-- The values of the facts at each time are those of the state that the chosen actions lead to. -/
theorem Reads.exists_stateAt (hreads : encoder.Reads last clauses vars)
    (hsatisfied : ∀ clause ∈ clauses, value.Satisfies clause.literals)
    (hplan : plan.Chronological)
    (htaken : ∀ time < last, ∀ id, id ∈ plan.actionsAt time ↔
      encoder.index.valueOf value (.action id) time = some true) {time : Nat}
    (htime : time ≤ last) :
    ∃ state, plan.stateAt problem time = .ok state ∧ state.size = problem.factCount ∧
      ∀ fact < problem.factCount,
        encoder.index.valueOf value (.fact fact) time = some (state.holds fact) := by
  induction time with
  | zero =>
      exact ⟨problem.init, Plan.stateAt_zero, problem.init_size,
        ((hreads.satisfied_iff value).mp hsatisfied).1⟩
  | succ time ih =>
      obtain ⟨state, hstate, hsize, hvalues⟩ := ih (by omega)
      have hread := hreads.readFrom time htime
      have hbefore : ∀ fact < problem.factCount,
          value ((vars time).factBefore fact) = some (state.holds fact) := by
        intro fact hfact
        rw [← hvalues fact hfact, VariableIndex.valueOf_of_get? (hread.before fact hfact)]
      have hstep : ∀ id, id ∈ (PlanStep.mk time (plan.actionsAt time)).actions ↔
          id < problem.actionCount ∧ value ((vars time).action id) = some true := by
        intro id
        rw [htaken time htime, hreads.valueOf_action_iff htime]
      obtain ⟨next, hnext, hnextSize, hafter⟩ :=
        TransitionVars.execute_of_obeys (hreads.obeys hsatisfied htime) hsize hbefore hstep
      refine ⟨next, ?_, hnextSize, fun fact hfact => ?_⟩
      · rw [Plan.stateAt_succ hplan, hstate]
        exact hnext
      · rw [VariableIndex.valueOf_of_get? (hread.after fact hfact), hafter fact hfact]

end Encoder

/-- What a plan makes of each fact, action and auxiliary: an auxiliary says whether an action
numbered above it is taken. -/
def Plan.truth (plan : Plan) (problem : Problem) : Entity → Nat → Bool
  | .fact fact, time =>
    match plan.stateAt problem time with
    | .ok state => state.holds fact
    | .error _ => false
  | .action id, time => (plan.actionsAt time).contains id
  | .aux n, time => (plan.actionsAt time).any fun id => n < id

theorem Plan.truth_fact {plan : Plan} {problem : Problem} {time fact : Nat} {state : State}
    (h : plan.stateAt problem time = .ok state) :
    plan.truth problem (.fact fact) time = state.holds fact := by
  simp only [Plan.truth, h]

namespace Encoder

variable {problem : Problem} {semantics : StepSemantics} {last : Nat}
  {encoder : Encoder problem semantics} {clauses : List Clause} {vars : Nat → TransitionVars}
  {plan : Plan} {final : State}

theorem Reads.satisfies_truth (hreads : encoder.Reads last clauses vars)
    (hplan : plan.Chronological) (hfinal : plan.stateAt problem last = .ok final)
    (hallows : ∀ time < last, semantics.Allows problem fun id => id ∈ plan.actionsAt time) :
    ∀ clause ∈ clauses, (Valuation.total
      (encoder.index.truthOf (plan.truth problem))).Satisfies clause.literals := by
  have hindex := hreads.encodedTo.consistent
  refine (hreads.satisfied_iff _).mpr ⟨fun fact hfact => ?_, fun time htime => ?_⟩
  · obtain ⟨var, hget⟩ := (VariableIndex.exists_get?_iff_mem hindex).mpr
      (hreads.encodedTo.entries_eq ▸ fact_mem_layout.mpr ⟨hfact, Nat.zero_le last⟩)
    rw [VariableIndex.valueOf_of_get? hget, Valuation.total,
      VariableIndex.truthOf_of_get? hindex hget, Plan.truth_fact Plan.stateAt_zero]
  · have hread := hreads.readFrom time htime
    obtain ⟨state, hstate⟩ := Plan.exists_stateAt_of_le hplan htime.le hfinal
    obtain ⟨next, hnext⟩ :=
      Plan.exists_stateAt_of_le hplan (Nat.succ_le_of_lt htime) hfinal
    have hstep : PlanStep.execute problem state ⟨time, plan.actionsAt time⟩ = .ok next := by
      rw [Plan.stateAt_succ hplan, hstate] at hnext
      exact hnext
    have haction : ∀ id < problem.actionCount,
        (encoder.index.truthOf (plan.truth problem) ((vars time).action id) = true ↔
          id ∈ plan.actionsAt time) := by
      intro id hid
      rw [VariableIndex.truthOf_of_get? hindex (hread.action id hid), Plan.truth,
        List.contains_iff_mem]
    have hknown : ∀ id ∈ plan.actionsAt time, id < problem.actionCount := by
      intro id hid
      obtain ⟨action, hget, -⟩ := (PlanStep.execute_eq_ok_iff.mp hstep).1 id hid
      exact Problem.lt_actionCount hget
    rw [TransitionVars.clauses, List.forall_mem_append]
    constructor
    · refine (TransitionVars.obeys_iff hindex hread).mpr
        (TransitionVars.obeys_of_execute hstep ?_ (hallows time htime) haction ?_ ?_)
      · exact Plan.size_stateAt hstate
      · intro fact hfact
        rw [VariableIndex.truthOf_of_get? hindex (hread.before fact hfact),
          Plan.truth_fact hstate]
      · intro fact hfact
        rw [VariableIndex.truthOf_of_get? hindex (hread.after fact hfact),
          Plan.truth_fact hnext]
    · have htaken : (fun id => id < problem.actionCount ∧
          encoder.index.truthOf (plan.truth problem) ((vars time).action id) = true) =
            fun id => id ∈ plan.actionsAt time := by
        funext id
        exact propext ⟨fun h => (haction id h.1).mp h.2,
          fun h => ⟨hknown id h, (haction id (hknown id h)).mpr h⟩⟩
      refine TransitionVars.satisfies_exclusion_of_allows hindex hread ?_ ?_
      · rw [htaken]
        exact hallows time htime
      · intro n hn
        rw [VariableIndex.truthOf_of_get? hindex (hread.aux n hn), Plan.truth, List.any_eq_true]
        constructor
        · rintro ⟨id, hid, hlt⟩
          exact ⟨id, of_decide_eq_true hlt, hknown id hid, (haction id (hknown id hid)).mpr hid⟩
        · rintro ⟨id, hlt, hid, htrue⟩
          exact ⟨id, (haction id hid).mp htrue, decide_eq_true hlt⟩

end Encoder

end BoundedPlanning
