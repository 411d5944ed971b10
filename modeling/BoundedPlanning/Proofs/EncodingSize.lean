import BoundedPlanning.Proofs.EncodedPlans
import BoundedPlanning.Proofs.Numbering

namespace BoundedPlanning

namespace Problem

def clausesThrough (problem : Problem) (semantics : StepSemantics) (last : Nat) : Nat :=
  problem.factCount + last * (TransitionScheme.of problem semantics).clauseCount

end Problem

/-- So many variables that the pairing has room for the keys of all of them. -/
def variableRoom : Nat := 1073741824

/-- Every variable of the steps 0 to `last` has a key, and there are numbers for all of them. -/
structure Problem.WithinLimits (problem : Problem) (semantics : StepSemantics) (last : Nat) :
    Prop where
  hasKey : ∀ entry ∈ layout problem semantics last, VariableIndex.HasKey entry
  variablesThrough_le : problem.variablesThrough semantics last ≤ maxVariable

/-- Above the lowest variable every variable has two clauses, except the highest, which has one. -/
theorem length_ladderRungs {n firstAux : Nat} {vars : List Nat} {start : Nat} (hstart : 0 < start)
    (hn : start + vars.length = n) (hvars : 0 < vars.length) :
    ((vars.zipIdx start).flatMap fun rung => ladderRung n firstAux rung.2 rung.1).length + 1 =
      2 * vars.length := by
  induction vars generalizing start with
  | nil => cases hvars
  | cons var rest ih =>
      rw [List.length_cons] at hn ⊢
      rw [List.zipIdx_cons, List.flatMap_cons, List.length_append]
      cases rest with
      | nil =>
          have hlast : ¬ start + 1 < n := by
            rw [List.length_nil] at hn
            omega
          simp [ladderRung, hstart, hlast]
      | cons other rest =>
          have hbelow : start + 1 < n := by
            rw [List.length_cons] at hn
            omega
          have hrest := ih (show 0 < start + 1 by omega) (by omega) (by simp)
          have hrung : (ladderRung n firstAux start var).length = 2 := by
            simp [ladderRung, hstart, hbelow]
          rw [hrung]
          omega

theorem length_ladder {vars : List Nat} {firstAux : Nat} :
    (ladder vars firstAux).length = ladderClauseCount vars.length := by
  unfold ladder ladderClauseCount
  split
  · rw [List.length_nil]
    omega
  · cases vars with
    | nil => simp at *
    | cons var rest =>
        rename_i hlong
        rw [List.length_cons] at hlong ⊢
        have hcount : 0 + 1 + rest.length = rest.length + 1 := by omega
        have hrest := @length_ladderRungs (rest.length + 1) firstAux rest (0 + 1) (by omega) hcount
          (by omega)
        have hrung : (ladderRung (rest.length + 1) firstAux 0 var).length = 1 := by
          simp [ladderRung, show 0 < rest.length by omega]
        rw [List.length_append, List.zipIdx_cons, List.flatMap_cons, List.length_append]
        simp only [ladderSteps, List.length_map, List.length_range, hrung]
        omega

namespace Problem

variable {problem : Problem}

theorem length_flatMap_numberedActions {α : Type} {items : Action × Nat → List α}
    (count : Action → Nat) (h : ∀ action id, (items (action, id)).length = count action) :
    (problem.numberedActions.flatMap items).length = (problem.actions.map count).sum := by
  rw [List.length_flatMap, ← List.zipIdx_map_fst 0 problem.actions, List.map_map]
  refine congrArg List.sum (List.map_congr_left ?_)
  rintro ⟨action, id⟩ -
  exact h action id

end Problem

namespace TransitionVars

variable {vars : TransitionVars} {problem : Problem} {semantics : StepSemantics}
  {index : VariableIndex} {time : Nat}

theorem length_preconditions_add_effects :
    (vars.preconditions problem).length + (vars.effects problem).length =
      problem.actionClauseCount := by
  rw [preconditions, effects, Problem.actionClauseCount,
    Problem.length_flatMap_numberedActions
      (fun action => action.pre.length + action.preNeg.length) (by simp),
    Problem.length_flatMap_numberedActions
      (fun action => action.add.length + action.effectiveDel.length) (by simp),
    List.length_flatMap]
  induction problem.actions with
  | nil => rfl
  | cons action rest ih =>
      simp only [List.map_cons, List.sum_cons, List.length_append] at ih ⊢
      omega

theorem length_frame : (vars.frame problem.factChanges).length = 2 * problem.factCount := by
  simp only [frame, Problem.factChanges, List.flatMap_map, List.length_flatMap, List.length_cons,
    List.length_nil, List.map_const', List.sum_replicate_nat, Problem.factIds, List.length_range]
  omega

theorem length_clauses (hread : vars.ReadFrom index problem semantics time) :
    (vars.clauses problem semantics (TransitionScheme.of problem semantics)).length =
      (TransitionScheme.of problem semantics).clauseCount := by
  have hexclusion : (vars.exclusion semantics
      (TransitionScheme.of problem semantics).interference).length =
        (TransitionScheme.of problem semantics).exclusion.clauses := by
    cases semantics with
    | sequential =>
        rw [exclusion, length_ladder, Array.length_toList, hread.actions_size]
        rfl
    | parallel =>
        rw [exclusion, List.length_map]
        rfl
  rw [clauses, List.length_append, List.length_append, List.length_append,
    length_preconditions_add_effects, hexclusion]
  exact congrArg (_ + · + _) length_frame

end TransitionVars

theorem WellFormed.exists_clause {bound : Nat} {lits : List Int} (h : WellFormed bound lits) :
    ∃ clause, Clause.ofLiterals lits = .ok clause :=
  Clause.exists_ofLiterals_eq_ok h.nonzero h.injective

namespace Encoder

variable {problem : Problem} {semantics : StepSemantics} {last : Nat}
  {encoder next : Encoder problem semantics} {clauses delta : List Clause}

theorem length_of_encodeInit
    (h : (Encoder.init problem semantics).encodeStep 0 = .ok (clauses, next)) :
    clauses.length = problem.factCount := by
  obtain ⟨vars, hlength, -, hclauses⟩ := exists_vars_of_encodeInit h
  rw [← (clausesOfLiterals_eq_ok_iff.mp hclauses).length_eq, List.length_map, List.length_zipIdx,
    hlength]

theorem Extends.length_eq {vars : TransitionVars} (h : encoder.Extends last vars delta next) :
    delta.length = (TransitionScheme.of problem semantics).clauseCount := by
  rw [← (clausesOfLiterals_eq_ok_iff.mp h.clauses_eq).length_eq,
    TransitionVars.length_clauses h.readFrom]

theorem length_of_encodeThrough
    (h : encodeThrough problem semantics last = .ok (clauses, encoder)) :
    clauses.length = problem.clausesThrough semantics last := by
  induction last generalizing clauses encoder with
  | zero =>
      rw [length_of_encodeInit h, Problem.clausesThrough]
      omega
  | succ last ih =>
      obtain ⟨⟨earlier, before⟩, hbefore, h⟩ := except_bind_eq_ok h
      obtain ⟨⟨delta, next⟩, hnext, h⟩ := except_bind_eq_ok h
      cases h
      obtain ⟨vars, hreads⟩ := exists_reads hbefore
      obtain ⟨stepVars, hstep⟩ := exists_extends hreads.encodedTo hnext
      rw [List.length_append, ih hbefore, hstep.length_eq, Problem.clausesThrough,
        Problem.clausesThrough, Nat.succ_mul]
      omega

theorem exists_initialClauses {index : VariableIndex} (hindex : index.Consistent)
    {vars : List Nat} (hvars : vars.map some = problem.factEntities.map fun entity =>
      index.get? entity 0) :
    ∃ clauses, clausesOfLiterals (vars.zipIdx.map fun (var, fact) =>
      [literal var (problem.init.holds fact)]) = .ok clauses := by
  refine exists_clausesOfLiterals_eq_ok fun lits hlits => ?_
  obtain ⟨⟨var, fact⟩, hmem, rfl⟩ := List.mem_map.mp hlits
  have hvar : some var ∈ vars.map some := by
    refine List.mem_map.mpr ⟨var, ?_, rfl⟩
    exact List.mem_of_getElem? (List.mk_mem_zipIdx_iff_getElem?.mp hmem)
  rw [hvars] at hvar
  obtain ⟨entity, -, hget⟩ := List.mem_map.mp hvar
  refine WellFormed.exists_clause (wellFormed_cons_literal
    (VariableIndex.get?_bounds hindex hget) (by simp) ?_)
  constructor <;> simp

theorem exists_encodeInit_eq_ok (hlimits : problem.WithinLimits semantics 0) :
    ∃ clauses next, (Encoder.init problem semantics).encodeStep 0 = .ok (clauses, next) := by
  have hempty : VariableIndex.empty.size = 0 := rfl
  obtain ⟨vars, index, hvars⟩ := VariableIndex.exists_idsOf_eq_ok VariableIndex.consistent_empty
    (fun entity hentity => Entity.isSome_stepKey_iff.mpr
      (hlimits.hasKey _ (fact_mem_layout_of_mem hentity)))
    (by simpa [hempty, Problem.variablesThrough] using hlimits.variablesThrough_le)
  have hgiven := VariableIndex.handsOut_idsOf VariableIndex.consistent_empty hvars
  obtain ⟨clauses, hclauses⟩ := exists_initialClauses hgiven.consistent hgiven.vars_eq
  refine ⟨clauses, { Encoder.init problem semantics with index := index, nextStep := 1 }, ?_⟩
  rw [encodeStep_zero]
  simp only [encodeInit, init, ne_eq, not_true_eq_false, if_false]
  rw [Problem.factEntities] at hvars
  rw [hvars]
  simp only [bind, Except.bind, hclauses]
  rfl

theorem exists_transitionVars_eq_ok (h : encoder.EncodedTo last)
    (hlimits : problem.WithinLimits semantics (last + 1)) :
    ∃ vars index, encoder.transitionVars (last + 1) = .ok (vars, index) := by
  have hkey : ∀ {entity : Entity} {time : Nat},
      (entity, time) ∈ layout problem semantics (last + 1) →
        (entity.stepKey time).isSome = true := by
    intro entity time hmem
    exact Entity.isSome_stepKey_iff.mpr (hlimits.hasKey _ hmem)
  have hsize := h.size_eq
  have hroom := hlimits.variablesThrough_le
  have hfactCount := problem.length_factEntities
  have hactionCount := problem.length_actionEntities
  have hauxCount := problem.length_auxEntities semantics
  have hadded : problem.variablesThrough semantics (last + 1) = encoder.index.size +
      (problem.actionCount + problem.factCount + problem.auxCount semantics) := by
    rw [hsize, Problem.variablesThrough, Problem.variablesThrough, Nat.succ_mul]
    omega
  obtain ⟨actions, afterActions, hactions⟩ := VariableIndex.exists_idsOf_eq_ok h.consistent
    (fun entity hentity => hkey (mem_layout_succ.mpr (Or.inr (Or.inl ⟨hentity, rfl⟩))))
    (by omega)
  have hgivenActions := VariableIndex.handsOut_idsOf h.consistent hactions
  have hsizeActions := VariableIndex.size_le_of_idsOf h.consistent hactions
  have hknown : ∀ entity ∈ problem.factEntities, (entity, last) ∈ afterActions.entries := by
    intro entity hentity
    exact hgivenActions.grows.subset (h.entries_eq ▸ fact_mem_layout_of_mem hentity)
  obtain ⟨before, hbefore⟩ := VariableIndex.idsOf_of_known hgivenActions.consistent hknown
  obtain ⟨after, afterFacts, hafter⟩ := VariableIndex.exists_idsOf_eq_ok hgivenActions.consistent
    (fun entity hentity => hkey (mem_layout_succ.mpr (Or.inr (Or.inr (Or.inl ⟨hentity, rfl⟩)))))
    (by omega)
  have hgivenAfter := VariableIndex.handsOut_idsOf hgivenActions.consistent hafter
  have hsizeAfter := VariableIndex.size_le_of_idsOf hgivenActions.consistent hafter
  obtain ⟨aux, afterAux, haux⟩ := VariableIndex.exists_idsOf_eq_ok hgivenAfter.consistent
    (fun entity hentity => hkey (mem_layout_succ.mpr (Or.inr (Or.inr (Or.inr ⟨hentity, rfl⟩)))))
    (by omega)
  refine ⟨⟨actions.toArray, before.toArray, after.toArray, aux.toArray⟩, afterAux, ?_⟩
  rw [Problem.actionEntities] at hactions
  rw [Problem.factEntities] at hbefore hafter
  rw [Problem.auxEntities, ← Problem.exclusion_vars, ← encoder.scheme_eq] at haux
  simp only [transitionVars, Nat.add_sub_cancel, hactions, hbefore, hafter, haux, bind,
    Except.bind, pure, Except.pure]

theorem exists_encodeStep_eq_ok (h : encoder.EncodedTo last)
    (hlimits : problem.WithinLimits semantics (last + 1)) :
    ∃ delta next, encoder.encodeStep (last + 1) = .ok (delta, next) := by
  obtain ⟨vars, index, hvars⟩ := exists_transitionVars_eq_ok h hlimits
  obtain ⟨hindex, -, hread⟩ := readFrom_of_transitionVars h hvars
  obtain ⟨delta, hdelta⟩ := exists_clausesOfLiterals_eq_ok fun lits hlits =>
    (TransitionVars.linking_clauses hindex hread lits hlits).exists_clause
  rw [← encoder.scheme_eq] at hdelta
  refine ⟨delta, { encoder with index := index, nextStep := (last + 1).toUInt32 + 1 }, ?_⟩
  rw [h.encodeStep_succ]
  simp only [link, hvars, hdelta, bind, Except.bind, pure, Except.pure]

end Encoder

namespace Problem

variable {problem : Problem} {semantics : StepSemantics} {last : Nat}

def Encodes (problem : Problem) (semantics : StepSemantics) (last : Nat) : Prop :=
  ∃ clauses encoder, encodeThrough problem semantics last = .ok (clauses, encoder)

theorem variablesThrough_mono {later : Nat} (hle : last ≤ later) :
    problem.variablesThrough semantics last ≤ problem.variablesThrough semantics later :=
  Nat.add_le_add_left (Nat.mul_le_mul_right _ hle) _

theorem WithinLimits.of_succ (h : problem.WithinLimits semantics (last + 1)) :
    problem.WithinLimits semantics last where
  hasKey entry hentry := h.hasKey entry (layout_prefix_succ.subset hentry)
  variablesThrough_le := (variablesThrough_mono (Nat.le_succ last)).trans h.variablesThrough_le

theorem WithinLimits.encodes (h : problem.WithinLimits semantics last) :
    problem.Encodes semantics last := by
  induction last with
  | zero => exact Encoder.exists_encodeInit_eq_ok h
  | succ last ih =>
      obtain ⟨clauses, encoder, hencoder⟩ := ih h.of_succ
      obtain ⟨vars, hreads⟩ := Encoder.exists_reads hencoder
      obtain ⟨delta, next, hnext⟩ := Encoder.exists_encodeStep_eq_ok hreads.encodedTo h
      refine ⟨clauses ++ delta, next, ?_⟩
      simp only [encodeThrough, hencoder, hnext, bind, Except.bind, pure, Except.pure]

/-- Nothing but a missing key or number keeps steps from being encoded. -/
theorem encodes_iff_withinLimits :
    problem.Encodes semantics last ↔ problem.WithinLimits semantics last := by
  constructor
  · rintro ⟨clauses, encoder, hencode⟩
    obtain ⟨vars, hreads⟩ := Encoder.exists_reads hencode
    have hencoded := hreads.encodedTo
    constructor
    · intro entry hentry
      rw [← hencoded.entries_eq] at hentry
      exact VariableIndex.hasKey_of_mem_entries hencoded.consistent hentry
    · rw [← hencoded.size_eq]
      exact hencoded.consistent.size_le
  · exact WithinLimits.encodes

theorem withinLimits_of_room (hroom : problem.variablesThrough semantics last ≤ variableRoom) :
    problem.WithinLimits semantics last := by
  refine ⟨?_, hroom.trans (by decide)⟩
  unfold variablesThrough variableRoom at hroom
  have hlast : 0 < problem.actionCount + problem.factCount + problem.auxCount semantics →
      last < 4294967296 := by
    intro hpos
    have := Nat.le_mul_of_pos_right last hpos
    omega
  have hall : 0 < last →
      problem.actionCount + problem.factCount + problem.auxCount semantics ≤ 1073741824 := by
    intro hpos
    have := Nat.le_mul_of_pos_left
      (problem.actionCount + problem.factCount + problem.auxCount semantics) hpos
    omega
  rintro ⟨entity, time⟩ hentry
  show entity.key < 4294967296 ∧ time < 4294967296
  cases entity with
  | fact id =>
      obtain ⟨hid, htime⟩ := fact_mem_layout.mp hentry
      have := hlast (by omega)
      exact ⟨by rw [Entity.key]; omega, by omega⟩
  | action id =>
      obtain ⟨hid, htime⟩ := action_mem_layout.mp hentry
      have := hlast (by omega)
      have := hall (by omega)
      exact ⟨by rw [Entity.key]; omega, by omega⟩
  | aux n =>
      obtain ⟨hn, htime⟩ := aux_mem_layout.mp hentry
      have := hlast (by omega)
      have := hall (by omega)
      exact ⟨by rw [Entity.key]; omega, by omega⟩

theorem encodes_of_room (h : problem.variablesThrough semantics last ≤ variableRoom) :
    problem.Encodes semantics last :=
  (withinLimits_of_room h).encodes

theorem Encodes.of_le {later : Nat} (h : problem.Encodes semantics later)
    (hle : last ≤ later) : problem.Encodes semantics last := by
  induction hle with
  | refl => exact h
  | step _ ih =>
      obtain ⟨clauses, encoder, hencode⟩ := h
      obtain ⟨⟨earlier, before⟩, hbefore, -⟩ := except_bind_eq_ok hencode
      exact ih ⟨earlier, before, hbefore⟩

end Problem

theorem Encoder.exists_encodeThrough_eq_ok {problem : Problem} {semantics : StepSemantics}
    {last : Nat} (hroom : problem.variablesThrough semantics last ≤ variableRoom) :
    ∃ clauses encoder, encodeThrough problem semantics last = .ok (clauses, encoder) :=
  Problem.encodes_of_room hroom

end BoundedPlanning
