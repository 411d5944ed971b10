import BoundedPlanning.Proofs.Valuation

/-!
Which variables the encoding of the steps 0 to `k` hands out, and in which order.  Facts of time 0
come first; each transition appends the actions before it, the facts after it and its auxiliaries.
-/

namespace BoundedPlanning

/-- Encode the steps 0 to `last` in order: all their clauses, and the encoder after them. -/
def encodeThrough (problem : Problem) (semantics : StepSemantics) :
    Nat → Except EncodingError (List Clause × Encoder problem semantics)
  | 0 => (Encoder.init problem semantics).encodeStep 0
  | last + 1 => do
      let (clauses, encoder) ← encodeThrough problem semantics last
      let (delta, next) ← encoder.encodeStep (last + 1)
      return (clauses ++ delta, next)

namespace Problem

def factEntities (problem : Problem) : List Entity := problem.factIds.map Entity.fact

def actionEntities (problem : Problem) : List Entity :=
  (List.range problem.actionCount).map Entity.action

/-- How many auxiliaries each transition has. -/
def auxCount (problem : Problem) : StepSemantics → Nat
  | .sequential => ladderAuxCount problem.actionCount
  | .parallel => 0

def auxEntities (problem : Problem) (semantics : StepSemantics) : List Entity :=
  (List.range (problem.auxCount semantics)).map Entity.aux

theorem auxCount_eq (problem : Problem) (semantics : StepSemantics) :
    problem.auxCount semantics =
      if semantics = .sequential ∧ 2 ≤ problem.actionCount then problem.actionCount - 1 else 0 := by
  cases semantics with
  | sequential =>
      simp only [auxCount, ladderAuxCount, true_and]
      split <;> omega
  | parallel => rfl

@[simp] theorem mem_factEntities {problem : Problem} {entity : Entity} :
    entity ∈ problem.factEntities ↔ ∃ fact, fact < problem.factCount ∧ .fact fact = entity := by
  simp [factEntities, factIds]

@[simp] theorem mem_actionEntities {problem : Problem} {entity : Entity} :
    entity ∈ problem.actionEntities ↔ ∃ id, id < problem.actionCount ∧ .action id = entity := by
  simp [actionEntities]

@[simp] theorem mem_auxEntities {problem : Problem} {semantics : StepSemantics}
    {entity : Entity} :
    entity ∈ problem.auxEntities semantics ↔
      ∃ n, n < problem.auxCount semantics ∧ .aux n = entity := by
  simp [auxEntities]

@[simp] theorem length_factEntities (problem : Problem) :
    problem.factEntities.length = problem.factCount := by
  simp [factEntities, factIds]

@[simp] theorem length_actionEntities (problem : Problem) :
    problem.actionEntities.length = problem.actionCount := by
  simp [actionEntities]

@[simp] theorem length_auxEntities (problem : Problem) (semantics : StepSemantics) :
    (problem.auxEntities semantics).length = problem.auxCount semantics := by
  simp [auxEntities]

theorem nodup_factEntities (problem : Problem) : problem.factEntities.Nodup :=
  List.nodup_range.map fun _ _ h => Entity.fact.inj h

theorem nodup_actionEntities (problem : Problem) : problem.actionEntities.Nodup :=
  List.nodup_range.map fun _ _ h => Entity.action.inj h

theorem nodup_auxEntities (problem : Problem) (semantics : StepSemantics) :
    (problem.auxEntities semantics).Nodup :=
  List.nodup_range.map fun _ _ h => Entity.aux.inj h

theorem exclusion_vars (problem : Problem) (semantics : StepSemantics) :
    (TransitionScheme.of problem semantics).exclusion.vars = problem.auxCount semantics := by
  cases semantics <;> rfl

def variablesThrough (problem : Problem) (semantics : StepSemantics) (last : Nat) : Nat :=
  problem.factCount +
    last * (problem.actionCount + problem.factCount + problem.auxCount semantics)

end Problem

def layout (problem : Problem) (semantics : StepSemantics) : Nat → List (Entity × Nat)
  | 0 => problem.factEntities.map (·, 0)
  | last + 1 =>
      layout problem semantics last ++ problem.actionEntities.map (·, last) ++
        problem.factEntities.map (·, last + 1) ++ (problem.auxEntities semantics).map (·, last)

theorem length_layout (problem : Problem) (semantics : StepSemantics) (last : Nat) :
    (layout problem semantics last).length = problem.variablesThrough semantics last := by
  induction last with
  | zero => simp [layout, Problem.variablesThrough]
  | succ last ih =>
      rw [Problem.variablesThrough] at ih ⊢
      simp [layout, ih, Nat.succ_mul]
      omega

section Membership

variable {problem : Problem} {semantics : StepSemantics} {last time : Nat}

theorem mem_layout_succ {entity : Entity} :
    (entity, time) ∈ layout problem semantics (last + 1) ↔
      (entity, time) ∈ layout problem semantics last ∨
        (entity ∈ problem.actionEntities ∧ time = last) ∨
        (entity ∈ problem.factEntities ∧ time = last + 1) ∨
        (entity ∈ problem.auxEntities semantics ∧ time = last) := by
  have hpair : ∀ (entities : List Entity) (step : Nat),
      (entity, time) ∈ entities.map (·, step) ↔ entity ∈ entities ∧ time = step := by
    intro entities step
    simp [eq_comm]
  rw [layout, List.mem_append, List.mem_append, List.mem_append, hpair, hpair, hpair, or_assoc,
    or_assoc]

theorem fact_mem_layout {fact : Nat} :
    (Entity.fact fact, time) ∈ layout problem semantics last ↔
      fact < problem.factCount ∧ time ≤ last := by
  induction last with
  | zero => simp [layout, eq_comm]
  | succ last ih =>
      rw [mem_layout_succ, ih]
      simp
      omega

theorem action_mem_layout {id : Nat} :
    (Entity.action id, time) ∈ layout problem semantics last ↔
      id < problem.actionCount ∧ time < last := by
  induction last with
  | zero => simp [layout]
  | succ last ih =>
      rw [mem_layout_succ, ih]
      simp
      omega

theorem aux_mem_layout {n : Nat} :
    (Entity.aux n, time) ∈ layout problem semantics last ↔
      n < problem.auxCount semantics ∧ time < last := by
  induction last with
  | zero => simp [layout]
  | succ last ih =>
      rw [mem_layout_succ, ih]
      simp
      omega

theorem action_fresh {entity : Entity} (h : entity ∈ problem.actionEntities) :
    (entity, last) ∉ layout problem semantics last := by
  obtain ⟨id, -, rfl⟩ := Problem.mem_actionEntities.mp h
  rw [action_mem_layout]
  exact fun hmem => Nat.lt_irrefl last hmem.2

theorem fact_mem_layout_of_mem {entity : Entity} (h : entity ∈ problem.factEntities) :
    (entity, last) ∈ layout problem semantics last := by
  obtain ⟨fact, hfact, rfl⟩ := Problem.mem_factEntities.mp h
  exact fact_mem_layout.mpr ⟨hfact, le_rfl⟩

theorem fact_fresh {entity : Entity} (h : entity ∈ problem.factEntities) :
    (entity, last + 1) ∉
      layout problem semantics last ++ problem.actionEntities.map (·, last) := by
  obtain ⟨fact, -, rfl⟩ := Problem.mem_factEntities.mp h
  rw [List.mem_append, fact_mem_layout]
  simp

theorem aux_fresh {entity : Entity} (h : entity ∈ problem.auxEntities semantics) :
    (entity, last) ∉ layout problem semantics last ++ problem.actionEntities.map (·, last) ++
      problem.factEntities.map (·, last + 1) := by
  obtain ⟨n, -, rfl⟩ := Problem.mem_auxEntities.mp h
  rw [List.mem_append, List.mem_append, aux_mem_layout]
  simp

theorem layout_prefix_succ :
    layout problem semantics last <+: layout problem semantics (last + 1) := by
  simp only [layout, List.append_assoc]
  exact List.prefix_append _ _

end Membership

/-- What the encoder knows once the steps 0 to `last` are encoded. -/
structure Encoder.EncodedTo {problem : Problem} {semantics : StepSemantics}
    (encoder : Encoder problem semantics) (last : Nat) : Prop where
  consistent : encoder.index.Consistent
  entries_eq : encoder.index.entries = layout problem semantics last
  nextStep_eq : encoder.nextStep = (last + 1).toUInt32

/-- The variables of a transition are those that the index gives to its actions and facts; its
auxiliaries are numbered one after the other. -/
structure TransitionVars.ReadFrom (vars : TransitionVars) (index : VariableIndex)
    (problem : Problem) (semantics : StepSemantics) (time : Nat) : Prop where
  action : ∀ id < problem.actionCount, index.get? (.action id) time = some (vars.action id)
  before : ∀ fact < problem.factCount, index.get? (.fact fact) time = some (vars.factBefore fact)
  after : ∀ fact < problem.factCount,
    index.get? (.fact fact) (time + 1) = some (vars.factAfter fact)
  aux : ∀ n < problem.auxCount semantics,
    index.get? (.aux n) time = some (vars.aux[0]?.getD 0 + n)
  actions_size : vars.actions.size = problem.actionCount

namespace VariableIndex

theorem HandsOut.getElem? {index next : VariableIndex} {entities : List Entity} {step : Nat}
    {vars : List Nat} (h : index.HandsOut entities step vars next) {i : Nat} {entity : Entity}
    (hentity : entities[i]? = some entity) :
    ∃ var, vars[i]? = some var ∧ next.get? entity step = some var := by
  have hvars := congrArg (·[i]?) h.vars_eq
  simp only [List.getElem?_map, hentity, Option.map_some] at hvars
  obtain ⟨var, hvar, hget⟩ := Option.map_eq_some_iff.mp hvars
  exact ⟨var, hvar, hget.symm⟩

theorem HandsOut.length_eq {index next : VariableIndex} {entities : List Entity} {step : Nat}
    {vars : List Nat} (h : index.HandsOut entities step vars next) :
    vars.length = entities.length := by
  simpa using congrArg List.length h.vars_eq

theorem HandsOut.get?_getD {index next : VariableIndex} {entity : Nat → Entity}
    {step count : Nat} {vars : List Nat}
    (h : index.HandsOut ((List.range count).map entity) step vars next) {i : Nat}
    (hi : i < count) : next.get? (entity i) step = some (vars.toArray[i]?.getD 0) := by
  have hentity : ((List.range count).map entity)[i]? = some (entity i) := by
    simp [hi]
  obtain ⟨var, hvar, hget⟩ := h.getElem? hentity
  simp [hget, hvar]

end VariableIndex

namespace Encoder

variable {problem : Problem} {semantics : StepSemantics} {last : Nat}
  {encoder next : Encoder problem semantics}

theorem EncodedTo.size_eq (h : encoder.EncodedTo last) :
    encoder.index.size = problem.variablesThrough semantics last := by
  rw [← VariableIndex.length_entries, h.entries_eq, length_layout]

theorem encodeStep_zero : encoder.encodeStep 0 = encoder.encodeInit :=
  if_pos rfl

theorem encodedTo_of_encodeInit {clauses : List Clause}
    (h : (Encoder.init problem semantics).encodeStep 0 = .ok (clauses, next)) :
    next.EncodedTo 0 := by
  rw [encodeStep_zero] at h
  simp only [encodeInit, init, ne_eq, not_true_eq_false, if_false] at h
  obtain ⟨⟨vars, index⟩, hvars, h⟩ := except_bind_eq_ok h
  obtain ⟨found, -, h⟩ := except_bind_eq_ok h
  cases h
  obtain ⟨hentries, -⟩ := VariableIndex.entries_of_idsOf_fresh VariableIndex.consistent_empty
    problem.nodup_factEntities (by simp) hvars
  exact ⟨(VariableIndex.handsOut_idsOf VariableIndex.consistent_empty hvars).consistent,
    by simpa [layout] using hentries, rfl⟩

/-- The actions before the transition, the facts after it and its auxiliaries are new; the facts
before it are not. -/
theorem readFrom_of_transitionVars (hencoder : encoder.EncodedTo last) {vars : TransitionVars}
    {index : VariableIndex} (h : encoder.transitionVars (last + 1) = .ok (vars, index)) :
    index.Consistent ∧ index.entries = layout problem semantics (last + 1) ∧
      vars.ReadFrom index problem semantics last := by
  obtain ⟨⟨actions, afterActions⟩, hactions, h⟩ := except_bind_eq_ok h
  obtain ⟨⟨before, afterBefore⟩, hbefore, h⟩ := except_bind_eq_ok h
  obtain ⟨⟨after, afterFacts⟩, hafter, h⟩ := except_bind_eq_ok h
  obtain ⟨⟨aux, afterAux⟩, haux, h⟩ := except_bind_eq_ok h
  cases h
  rw [Nat.add_sub_cancel] at hactions hbefore haux
  rw [encoder.scheme_eq, Problem.exclusion_vars] at haux
  have hgivenActions := VariableIndex.handsOut_idsOf hencoder.consistent hactions
  have hgivenBefore := VariableIndex.handsOut_idsOf hgivenActions.consistent hbefore
  have hgivenAfter := VariableIndex.handsOut_idsOf hgivenBefore.consistent hafter
  have hgivenAux := VariableIndex.handsOut_idsOf hgivenAfter.consistent haux
  have hentriesActions : afterActions.entries =
      layout problem semantics last ++ problem.actionEntities.map (·, last) := by
    rw [← hencoder.entries_eq]
    refine (VariableIndex.entries_of_idsOf_fresh hencoder.consistent
      problem.nodup_actionEntities ?_ hactions).1
    rw [hencoder.entries_eq]
    exact fun entity => action_fresh
  have hsame : afterBefore = afterActions := by
    have hfacts : ∀ entity ∈ problem.factEntities, (entity, last) ∈ afterActions.entries := by
      intro entity hentity
      rw [hentriesActions]
      exact List.mem_append_left _ (fact_mem_layout_of_mem hentity)
    obtain ⟨known, hknown⟩ := VariableIndex.idsOf_of_known hgivenActions.consistent hfacts
    rw [Problem.factEntities, hbefore] at hknown
    exact (Prod.mk.inj (Except.ok.inj hknown)).2
  have hentriesAfter : afterFacts.entries = layout problem semantics last ++
      problem.actionEntities.map (·, last) ++ problem.factEntities.map (·, last + 1) := by
    rw [← hentriesActions, ← hsame]
    refine (VariableIndex.entries_of_idsOf_fresh hgivenBefore.consistent
      problem.nodup_factEntities ?_ hafter).1
    rw [hsame, hentriesActions]
    exact fun entity => fact_fresh
  obtain ⟨hentriesAux, hauxVars⟩ := VariableIndex.entries_of_idsOf_fresh hgivenAfter.consistent
    (problem.nodup_auxEntities semantics) (hentriesAfter ▸ fun entity => aux_fresh) haux
  refine ⟨hgivenAux.consistent, ?_, ?_, ?_, ?_, ?_, ?_⟩
  · rw [hentriesAux, hentriesAfter, layout]
  · intro id hid
    refine VariableIndex.get?_of_grows hgivenActions.consistent hgivenAux.consistent ?_
      (hgivenActions.get?_getD hid)
    exact hgivenBefore.grows.trans (hgivenAfter.grows.trans hgivenAux.grows)
  · intro fact hfact
    exact VariableIndex.get?_of_grows hgivenBefore.consistent hgivenAux.consistent
      (hgivenAfter.grows.trans hgivenAux.grows) (hgivenBefore.get?_getD hfact)
  · intro fact hfact
    exact VariableIndex.get?_of_grows hgivenAfter.consistent hgivenAux.consistent
      hgivenAux.grows (hgivenAfter.get?_getD hfact)
  · intro n hn
    rw [hgivenAux.get?_getD hn, hauxVars, Problem.length_auxEntities]
    have hpos : 0 < problem.auxCount semantics := by omega
    simp [hn, hpos]
  · simpa using hgivenActions.length_eq

end Encoder

end BoundedPlanning
