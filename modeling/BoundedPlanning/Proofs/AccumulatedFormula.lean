import BoundedPlanning.Proofs.RunEncoders
import BoundedPlanning.Proofs.VariableBlocks

namespace BoundedPlanning

namespace Problem

section Literals

variable (problem : Problem) (semantics : StepSemantics)

def initialLiterals : List (List Int) :=
  problem.factIds.map fun fact =>
    [literal (problem.factVariable semantics 0 fact) (problem.init.holds fact)]

/-- The clauses that link the steps on both sides of a transition, its exclusion left out. -/
def linkingLiterals (time : Nat) : List (List Int) :=
  let vars := problem.transitionVars semantics time
  vars.preconditions problem ++ vars.effects problem ++ vars.frame problem.factChanges

def exclusionLiterals (time : Nat) : List (List Int) :=
  (problem.transitionVars semantics time).exclusion semantics
    (TransitionScheme.of problem semantics).interference

def transitionLiterals (time : Nat) : List (List Int) :=
  problem.linkingLiterals semantics time ++ problem.exclusionLiterals semantics time

/-- The variable stands for an action at the time, or for a fact before or after the transition. -/
def Linked (last time var : Nat) : Prop :=
  ∃ entity step, problem.variableOf? semantics last entity step = some var ∧
    (entity ∈ problem.actionEntities ∧ step = time ∨
      entity ∈ problem.factEntities ∧ (step = time ∨ step = time + 1))

def formula (last : Nat) : List (List Int) :=
  problem.initialLiterals semantics ++
    (List.range last).flatMap (problem.transitionLiterals semantics)

end Literals

variable {problem : Problem} {semantics : StepSemantics} {last time : Nat}

theorem formula_succ :
    problem.formula semantics (last + 1) =
      problem.formula semantics last ++ problem.transitionLiterals semantics last := by
  simp [formula, List.range_succ]

theorem length_linkingLiterals :
    (problem.linkingLiterals semantics time).length =
      problem.actionClauseCount + 2 * problem.factCount := by
  simp only [linkingLiterals, List.length_append, TransitionVars.length_preconditions_add_effects,
    TransitionVars.length_frame]

/-- The exclusion of one transition stands between what was emitted before it and after it. -/
theorem formula_eq_append (htime : time < last) :
    problem.formula semantics last =
      (problem.formula semantics time ++ problem.linkingLiterals semantics time) ++
        problem.exclusionLiterals semantics time ++
          (List.range' (time + 1) (last - (time + 1))).flatMap
            (problem.transitionLiterals semantics) := by
  have hrange : List.range last =
      List.range time ++ time :: List.range' (time + 1) (last - (time + 1)) := by
    obtain ⟨gap, rfl⟩ := Nat.exists_eq_add_of_lt htime
    have hgap : time + gap + 1 - (time + 1) = gap := by omega
    have happend := List.range'_append_1 (s := 0) (m := time) (n := gap + 1)
    rw [hgap, List.range_eq_range', List.range_eq_range', Nat.add_assoc, ← happend, Nat.zero_add,
      List.range'_succ]
  rw [formula, hrange, List.flatMap_append, List.flatMap_cons, formula, transitionLiterals]
  simp only [List.append_assoc]

end Problem

section Mentions

variable {problem : Problem} {semantics : StepSemantics} {last time : Nat} {lits : List Int}
  {lit : Int}

theorem entity_of_mem_initialLiterals (hlits : lits ∈ problem.initialLiterals semantics)
    (hlit : lit ∈ lits) :
    ∃ entity ∈ problem.factEntities,
      problem.variableOf? semantics last entity 0 = some lit.natAbs := by
  obtain ⟨fact, hfact, rfl⟩ := List.mem_map.mp hlits
  have hfact := List.mem_range.mp hfact
  rw [List.mem_singleton.mp hlit, natAbs_literal]
  exact ⟨_, Problem.mem_factEntities.mpr ⟨fact, hfact, rfl⟩,
    Problem.variableOf?_fact hfact (Nat.zero_le last)⟩

theorem linked_of_mem_linkingLiterals (htime : time < last)
    (hlits : lits ∈ problem.linkingLiterals semantics time) (hlit : lit ∈ lits) :
    problem.Linked semantics last time lit.natAbs := by
  have haction : ∀ id < problem.actionCount, problem.Linked semantics last time
      ((problem.transitionVars semantics time).action id) := by
    intro id hid
    rw [Problem.action_transitionVars hid]
    exact ⟨.action id, time, Problem.variableOf?_action hid htime, by simp [hid]⟩
  have hbefore : ∀ fact < problem.factCount, problem.Linked semantics last time
      ((problem.transitionVars semantics time).factBefore fact) := by
    intro fact hfact
    rw [Problem.factBefore_transitionVars hfact]
    exact ⟨.fact fact, time, Problem.variableOf?_fact hfact htime.le, by simp [hfact]⟩
  have hafter : ∀ fact < problem.factCount, problem.Linked semantics last time
      ((problem.transitionVars semantics time).factAfter fact) := by
    intro fact hfact
    rw [Problem.factAfter_transitionVars hfact]
    exact ⟨.fact fact, time + 1, Problem.variableOf?_fact hfact htime, by simp [hfact]⟩
  exact TransitionVars.forall_var_linking haction hbefore hafter lits hlits lit hlit

theorem entity_of_mem_exclusionLiterals (htime : time < last)
    (hlits : lits ∈ problem.exclusionLiterals semantics time) (hlit : lit ∈ lits) :
    ∃ entity, problem.variableOf? semantics last entity time = some lit.natAbs ∧
      (entity ∈ problem.actionEntities ∨ entity ∈ problem.auxEntities semantics) := by
  by_cases hvar : lit.natAbs ∈ (problem.transitionVars semantics time).actions
  · obtain ⟨id, hid, hvar⟩ := Problem.mem_actions_transitionVars.mp hvar
    rw [← hvar]
    exact ⟨.action id, Problem.variableOf?_action hid htime, by simp [hid]⟩
  · obtain ⟨n, hn, hvar⟩ := Problem.mem_aux_transitionVars.mp
      ((mem_aux_iff_exists_mem_exclusion hvar).mpr ⟨lits, hlits, lit, hlit, rfl⟩)
    rw [← hvar]
    exact ⟨.aux n, Problem.variableOf?_aux hn htime, by simp [hn]⟩

end Mentions

theorem clausesOfLiterals_append_eq_ok_iff {first second : List (List Int)}
    {clauses : List Clause} :
    clausesOfLiterals (first ++ second) = .ok clauses ↔
      ∃ initial rest, clausesOfLiterals first = .ok initial ∧
        clausesOfLiterals second = .ok rest ∧ clauses = initial ++ rest := by
  rw [clausesOfLiterals, List.mapM_append]
  constructor
  · intro h
    obtain ⟨initial, hinitial, h⟩ := except_bind_eq_ok h
    obtain ⟨rest, hrest, h⟩ := except_bind_eq_ok h
    exact ⟨initial, rest, hinitial, hrest, (Except.ok.inj h).symm⟩
  · rintro ⟨initial, rest, hinitial, hrest, rfl⟩
    rw [clausesOfLiterals] at hinitial hrest
    rw [hinitial, hrest]
    rfl

theorem length_of_clausesOfLiterals {lists : List (List Int)} {clauses : List Clause}
    (h : clausesOfLiterals lists = .ok clauses) : clauses.length = lists.length :=
  (clausesOfLiterals_eq_ok_iff.mp h).length_eq.symm

section Emission

variable {problem : Problem} {semantics : StepSemantics} {last : Nat} {clauses : List Clause}
  {encoder : Encoder problem semantics}

theorem clausesOfLiterals_initialLiterals
    (h : (Encoder.init problem semantics).encodeStep 0 = .ok (clauses, encoder)) :
    clausesOfLiterals (problem.initialLiterals semantics) = .ok clauses := by
  obtain ⟨vars, hlength, hvar, hclauses⟩ := Encoder.exists_vars_of_encodeInit h
  have hget := (Encoder.encodedTo_of_encodeInit h).get?_eq
  rw [← hclauses]
  refine congrArg clausesOfLiterals (List.ext_getElem? fun fact => ?_)
  rcases Nat.lt_or_ge fact problem.factCount with hfact | hfact
  · have hfound := (hvar fact _).mpr
      ⟨hfact, (hget _ _).trans (Problem.variableOf?_fact hfact le_rfl)⟩
    simp [Problem.initialLiterals, Problem.factIds, hfact, hfound]
  · rw [List.getElem?_eq_none, List.getElem?_eq_none]
    · simpa [hlength] using hfact
    · simpa [Problem.initialLiterals, Problem.factIds] using hfact

/-- The clauses of the steps 0 to `last` are those of the formula, in its order. -/
theorem clausesOfLiterals_formula
    (h : encodeThrough problem semantics last = .ok (clauses, encoder)) :
    clausesOfLiterals (problem.formula semantics last) = .ok clauses := by
  induction last generalizing clauses encoder with
  | zero =>
      rw [Problem.formula, List.range_zero, List.flatMap_nil, List.append_nil]
      exact clausesOfLiterals_initialLiterals h
  | succ last ih =>
      obtain ⟨⟨earlier, before⟩, hbefore, h⟩ := except_bind_eq_ok h
      obtain ⟨⟨delta, next⟩, hnext, h⟩ := except_bind_eq_ok h
      cases h
      obtain ⟨-, -, hdelta⟩ := (encodedTo_of_encodeThrough hbefore).exists_of_encodeStep hnext
      rw [Problem.formula_succ, clausesOfLiterals_append_eq_ok_iff]
      exact ⟨earlier, delta, ih hbefore, hdelta, rfl⟩

theorem encodedTo_of_encoderBefore (h : encoderBefore problem semantics (last + 1) = .ok encoder) :
    encoder.EncodedTo last := by
  obtain ⟨clauses, hencode⟩ := exists_encodeThrough_of_encoderBefore h
  exact encodedTo_of_encodeThrough hencode

theorem nextStep_of_encoderBefore {step : Nat}
    (h : encoderBefore problem semantics step = .ok encoder) :
    encoder.nextStep = step.toUInt32 := by
  cases step with
  | zero =>
      cases h
      rfl
  | succ last => exact (encodedTo_of_encoderBefore h).nextStep_eq

theorem exists_encodeStep_of_encoderBefore {step : Nat}
    (hencoder : encoderBefore problem semantics step = .ok encoder)
    (hlimits : problem.WithinLimits semantics step) :
    ∃ delta next, encoder.encodeStep step = .ok (delta, next) := by
  cases step with
  | zero =>
      cases hencoder
      exact Encoder.exists_encodeInit_eq_ok hlimits
  | succ last => exact Encoder.exists_encodeStep_eq_ok (encodedTo_of_encoderBefore hencoder) hlimits

end Emission

section Sizes

variable {problem : Problem} {semantics : StepSemantics}

theorem Encoder.stepSize_zero (encoder : Encoder problem semantics) :
    encoder.stepSize 0 = ⟨problem.factCount, problem.factCount⟩ :=
  if_pos rfl

theorem Encoder.stepSize_succ (encoder : Encoder problem semantics) (last : Nat) :
    encoder.stepSize (last + 1) =
      ⟨problem.actionCount + problem.factCount + problem.auxCount semantics,
        (TransitionScheme.of problem semantics).clauseCount⟩ := by
  rw [stepSize, if_neg (Nat.succ_ne_zero last), encoder.scheme_eq, Problem.exclusion_vars]

/-- A step adds as many variables and clauses as was announced, however early the encoder was
asked. -/
theorem stepSize_exact {encoder next : Encoder problem semantics} {step : Nat}
    {delta : List Clause} (hencoder : encoderBefore problem semantics step = .ok encoder)
    (hstep : encoder.encodeStep step = .ok (delta, next))
    (early : Encoder problem semantics) :
    next.index.size = encoder.index.size + (early.stepSize step).vars ∧
      delta.length = (early.stepSize step).clauses := by
  cases step with
  | zero =>
      obtain rfl := Except.ok.inj hencoder
      rw [early.stepSize_zero]
      refine ⟨?_, Encoder.length_of_encodeInit hstep⟩
      have hempty : (Encoder.init problem semantics).index.size = 0 := rfl
      simp [(Encoder.encodedTo_of_encodeInit hstep).size_eq, Problem.variablesThrough, hempty]
  | succ last =>
      have hencoded := encodedTo_of_encoderBefore hencoder
      obtain ⟨vars, hextends⟩ := Encoder.exists_extends hencoded hstep
      rw [early.stepSize_succ]
      refine ⟨?_, hextends.length_eq⟩
      rw [hextends.encodedTo.size_eq, hencoded.size_eq]
      simp only [Problem.variablesThrough, Nat.succ_mul]
      omega

theorem stepSize_exact_door :
    ∃ encoder next delta, encoderBefore door .sequential 1 = .ok encoder ∧
      encoder.encodeStep 1 = .ok (delta, next) ∧
      next.index.size = encoder.index.size + 12 ∧ delta.length = 28 := by
  obtain ⟨clauses, next, hencode⟩ := Encoder.exists_encodeThrough_eq_ok
    (show door.variablesThrough .sequential 1 ≤ variableRoom by decide)
  obtain ⟨earlier, encoder, delta, next, hbefore, hdelta⟩ :=
    exists_transition_of_encodeThrough hencode Nat.zero_lt_one
  have hencoder : encoderBefore door .sequential 1 = .ok encoder := by
    rw [encoderBefore, hbefore]
    rfl
  obtain ⟨hvars, hclauses⟩ := stepSize_exact hencoder hdelta (.init door .sequential)
  exact ⟨encoder, next, delta, hencoder, hdelta, hvars, hclauses⟩

end Sizes

end BoundedPlanning
