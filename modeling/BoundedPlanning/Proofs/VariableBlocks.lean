import BoundedPlanning.Proofs.EncodingCorrectness

/-!
The numbers of the variables in closed form.  The facts of time 0 have the first ones.  Each
transition has the block after those of the steps before it: its actions, the facts after it and its
auxiliaries, each kind without gaps.
-/

namespace BoundedPlanning

namespace Problem

section Numbers

variable (problem : Problem) (semantics : StepSemantics)

def actionVariable (time id : Nat) : Nat := problem.variablesThrough semantics time + id + 1

def factVariable : Nat → Nat → Nat
  | 0, fact => fact + 1
  | time + 1, fact => problem.variablesThrough semantics time + problem.actionCount + fact + 1

def auxVariable (time n : Nat) : Nat :=
  problem.variablesThrough semantics time + problem.actionCount + problem.factCount + n + 1

def variableOf? (last : Nat) (entity : Entity) (time : Nat) : Option Nat :=
  match entity with
  | .fact id =>
    if id < problem.factCount ∧ time ≤ last then some (problem.factVariable semantics time id)
    else none
  | .action id =>
    if id < problem.actionCount ∧ time < last then some (problem.actionVariable semantics time id)
    else none
  | .aux n =>
    if n < problem.auxCount semantics ∧ time < last then some (problem.auxVariable semantics time n)
    else none

def blockEntries (time : Nat) : List (Entity × Nat) :=
  problem.actionEntities.map (·, time) ++ problem.factEntities.map (·, time + 1) ++
    (problem.auxEntities semantics).map (·, time)

def actionVariables (time : Nat) : List Nat :=
  (List.range problem.actionCount).map (problem.actionVariable semantics time)

def factVariables (time : Nat) : List Nat :=
  (List.range problem.factCount).map (problem.factVariable semantics time)

def auxVariables (time : Nat) : List Nat :=
  (List.range (problem.auxCount semantics)).map (problem.auxVariable semantics time)

/-- The variables that the clauses of the transition that starts at the time mention. -/
def transitionVars (time : Nat) : TransitionVars where
  actions := (problem.actionVariables semantics time).toArray
  before := (problem.factVariables semantics time).toArray
  after := (problem.factVariables semantics (time + 1)).toArray
  aux := (problem.auxVariables semantics time).toArray

end Numbers

end Problem

section Positions

variable {problem : Problem} {semantics : StepSemantics} {last time : Nat}

theorem layout_succ :
    layout problem semantics (last + 1) =
      layout problem semantics last ++ problem.blockEntries semantics last := by
  simp only [layout, Problem.blockEntries, List.append_assoc]

theorem layout_prefix_of_le (h : time ≤ last) :
    layout problem semantics time <+: layout problem semantics last := by
  induction h with
  | refl => exact List.prefix_rfl
  | step _ ih => exact ih.trans layout_prefix_succ

theorem getElem?_layout_init {fact : Nat} (hfact : fact < problem.factCount) :
    (layout problem semantics last)[fact]? = some (.fact fact, 0) := by
  obtain ⟨rest, hrest⟩ : layout problem semantics 0 <+: layout problem semantics last :=
    layout_prefix_of_le (Nat.zero_le last)
  rw [← hrest, List.getElem?_append_left]
  · simp [layout, Problem.factEntities, Problem.factIds, hfact]
  · simpa [layout] using hfact

theorem getElem?_layout_block (htime : time < last) {i : Nat} {entry : Entity × Nat}
    (h : (problem.blockEntries semantics time)[i]? = some entry) :
    (layout problem semantics last)[problem.variablesThrough semantics time + i]? = some entry := by
  obtain ⟨rest, hrest⟩ : layout problem semantics (time + 1) <+: layout problem semantics last :=
    layout_prefix_of_le htime
  rw [← hrest, List.getElem?_append_left, layout_succ,
    List.getElem?_append_right (by rw [length_layout]; omega), length_layout,
    Nat.add_sub_cancel_left, h]
  rw [layout_succ, List.length_append, length_layout]
  have := (List.getElem?_eq_some_iff.mp h).1
  omega

theorem getElem?_blockEntries_action {id : Nat} (hid : id < problem.actionCount) :
    (problem.blockEntries semantics time)[id]? = some (.action id, time) := by
  rw [Problem.blockEntries, List.append_assoc, List.getElem?_append_left (by simpa using hid)]
  simp [Problem.actionEntities, hid]

theorem getElem?_blockEntries_fact {fact : Nat} (hfact : fact < problem.factCount) :
    (problem.blockEntries semantics time)[problem.actionCount + fact]? =
      some (.fact fact, time + 1) := by
  rw [Problem.blockEntries, List.append_assoc, List.getElem?_append_right (by simp),
    List.getElem?_append_left (by simpa using hfact)]
  simp [Problem.factEntities, Problem.factIds, hfact]

theorem getElem?_blockEntries_aux {n : Nat} (hn : n < problem.auxCount semantics) :
    (problem.blockEntries semantics time)[problem.actionCount + problem.factCount + n]? =
      some (.aux n, time) := by
  rw [Problem.blockEntries, List.getElem?_append_right (by simp)]
  simp [Problem.auxEntities, hn]

theorem getElem?_layout_of_variableOf? {entity : Entity} {var : Nat}
    (h : problem.variableOf? semantics last entity time = some var) :
    0 < var ∧ (layout problem semantics last)[var - 1]? = some (entity, time) := by
  cases entity with
  | fact id =>
      obtain ⟨⟨hid, htime⟩, h⟩ := Option.ite_none_right_eq_some.mp h
      obtain rfl := Option.some.inj h
      rcases time with _ | time
      · exact ⟨Nat.succ_pos id, getElem?_layout_init hid⟩
      · refine ⟨Nat.succ_pos _, ?_⟩
        rw [Problem.factVariable, Nat.add_sub_cancel, Nat.add_assoc]
        exact getElem?_layout_block htime (getElem?_blockEntries_fact hid)
  | action id =>
      obtain ⟨⟨hid, htime⟩, h⟩ := Option.ite_none_right_eq_some.mp h
      obtain rfl := Option.some.inj h
      exact ⟨Nat.succ_pos _, getElem?_layout_block htime (getElem?_blockEntries_action hid)⟩
  | aux n =>
      obtain ⟨⟨hn, htime⟩, h⟩ := Option.ite_none_right_eq_some.mp h
      obtain rfl := Option.some.inj h
      refine ⟨Nat.succ_pos _, ?_⟩
      rw [Problem.auxVariable, Nat.add_sub_cancel, Nat.add_assoc, Nat.add_assoc, ← Nat.add_assoc
        problem.actionCount]
      exact getElem?_layout_block htime (getElem?_blockEntries_aux hn)

theorem variableOf?_injective {entity entity' : Entity} {step step' var : Nat}
    (h : problem.variableOf? semantics last entity step = some var)
    (h' : problem.variableOf? semantics last entity' step' = some var) :
    (entity, step) = (entity', step') := by
  have hentry := (getElem?_layout_of_variableOf? h).2
  rw [(getElem?_layout_of_variableOf? h').2] at hentry
  exact (Option.some.inj hentry).symm

theorem not_mem_layout_of_variableOf? {entity : Entity}
    (h : problem.variableOf? semantics last entity time = none) :
    (entity, time) ∉ layout problem semantics last := by
  cases entity with
  | fact id => simpa [Problem.variableOf?, fact_mem_layout] using h
  | action id => simpa [Problem.variableOf?, action_mem_layout] using h
  | aux n => simpa [Problem.variableOf?, aux_mem_layout] using h

end Positions

namespace VariableIndex

theorem get?_of_entries_eq_layout {problem : Problem} {semantics : StepSemantics} {last : Nat}
    {index : VariableIndex} (hindex : index.Consistent)
    (hentries : index.entries = layout problem semantics last) (entity : Entity) (time : Nat) :
    index.get? entity time = problem.variableOf? semantics last entity time := by
  cases h : problem.variableOf? semantics last entity time with
  | none =>
      rw [get?_eq_none_iff hindex, hentries]
      exact not_mem_layout_of_variableOf? h
  | some var =>
      rw [get?_eq_some_iff hindex, hentries]
      exact getElem?_layout_of_variableOf? h

theorem HandsOut.eq_map {index next final : VariableIndex} {entity : Nat → Entity}
    {number : Nat → Nat} {step count : Nat} {vars : List Nat}
    (h : index.HandsOut ((List.range count).map entity) step vars next)
    (hfinal : final.Consistent) (hgrows : next.entries <+: final.entries)
    (hnumber : ∀ i < count, final.get? (entity i) step = some (number i)) :
    vars = (List.range count).map number := by
  have hlength : vars.length = count := by simpa using h.length_eq
  apply List.ext_getElem?
  intro i
  rcases Nat.lt_or_ge i count with hi | hi
  · have hentity : ((List.range count).map entity)[i]? = some (entity i) := by simp [hi]
    obtain ⟨var, hvar, hget⟩ := h.getElem? hentity
    have hsame := get?_of_grows h.consistent hfinal hgrows hget
    rw [hnumber i hi] at hsame
    rw [hvar, ← hsame]
    simp [hi]
  · rw [List.getElem?_eq_none (hlength.trans_le hi), List.getElem?_eq_none (by simpa using hi)]

end VariableIndex

namespace Problem

variable {problem : Problem} {semantics : StepSemantics} {last time : Nat}

theorem variableOf?_fact {fact : Nat} (hfact : fact < problem.factCount) (htime : time ≤ last) :
    problem.variableOf? semantics last (.fact fact) time =
      some (problem.factVariable semantics time fact) :=
  if_pos ⟨hfact, htime⟩

theorem variableOf?_action {id : Nat} (hid : id < problem.actionCount) (htime : time < last) :
    problem.variableOf? semantics last (.action id) time =
      some (problem.actionVariable semantics time id) :=
  if_pos ⟨hid, htime⟩

theorem variableOf?_aux {n : Nat} (hn : n < problem.auxCount semantics) (htime : time < last) :
    problem.variableOf? semantics last (.aux n) time =
      some (problem.auxVariable semantics time n) :=
  if_pos ⟨hn, htime⟩

theorem action_transitionVars {id : Nat} (hid : id < problem.actionCount) :
    (problem.transitionVars semantics time).action id = problem.actionVariable semantics time id := by
  simp [TransitionVars.action, transitionVars, actionVariables, hid]

theorem factBefore_transitionVars {fact : Nat} (hfact : fact < problem.factCount) :
    (problem.transitionVars semantics time).factBefore fact =
      problem.factVariable semantics time fact := by
  simp [TransitionVars.factBefore, transitionVars, factVariables, hfact]

theorem factAfter_transitionVars {fact : Nat} (hfact : fact < problem.factCount) :
    (problem.transitionVars semantics time).factAfter fact =
      problem.factVariable semantics (time + 1) fact := by
  simp [TransitionVars.factAfter, transitionVars, factVariables, hfact]

@[simp] theorem mem_actions_transitionVars {var : Nat} :
    var ∈ (problem.transitionVars semantics time).actions ↔
      ∃ id < problem.actionCount, problem.actionVariable semantics time id = var := by
  simp [transitionVars, actionVariables]

@[simp] theorem mem_aux_transitionVars {var : Nat} :
    var ∈ (problem.transitionVars semantics time).aux ↔
      ∃ n < problem.auxCount semantics, problem.auxVariable semantics time n = var := by
  simp [transitionVars, auxVariables]

theorem auxVariable_eq_add (n : Nat) :
    problem.auxVariable semantics time n = problem.auxVariable semantics time 0 + n := by
  rw [auxVariable, auxVariable]
  omega

theorem firstAux_transitionVars (h : 0 < problem.auxCount semantics) :
    (problem.transitionVars semantics time).aux[0]?.getD 0 =
      problem.auxVariable semantics time 0 := by
  simp [transitionVars, auxVariables, h]

theorem getElem?_actionVariables {i var : Nat} :
    (problem.actionVariables semantics time)[i]? = some var ↔
      i < problem.actionCount ∧ problem.actionVariable semantics time i = var := by
  simp [actionVariables, List.getElem?_eq_some_iff]

theorem getElem?_auxVariables {i var : Nat} :
    (problem.auxVariables semantics time)[i]? = some var ↔
      i < problem.auxCount semantics ∧ problem.auxVariable semantics time i = var := by
  simp [auxVariables, List.getElem?_eq_some_iff]

/-- The auxiliaries stand one after the other, as the ladder takes them to. -/
theorem aux_transitionVars_consecutive {i var : Nat}
    (h : (problem.transitionVars semantics time).aux[i]? = some var) :
    var = (problem.transitionVars semantics time).aux[0]?.getD 0 + i := by
  obtain ⟨hi, rfl⟩ := getElem?_auxVariables.mp (by simpa [transitionVars] using h)
  rw [firstAux_transitionVars (Nat.zero_lt_of_lt hi), ← auxVariable_eq_add]

end Problem

namespace Encoder

variable {problem : Problem} {semantics : StepSemantics} {last : Nat}
  {encoder next : Encoder problem semantics}

theorem EncodedTo.get?_eq (h : encoder.EncodedTo last) (entity : Entity) (time : Nat) :
    encoder.index.get? entity time = problem.variableOf? semantics last entity time :=
  VariableIndex.get?_of_entries_eq_layout h.consistent h.entries_eq entity time

theorem EncodedTo.goalLiterals_eq (h : encoder.EncodedTo last) {horizon : Nat}
    (hhorizon : horizon ≤ last) :
    encoder.goalLiterals horizon = .ok (problem.goal.literals.map fun (fact, truth) =>
      literal (problem.factVariable semantics horizon fact) truth) := by
  rw [goalLiterals, except_mapM_eq_ok_iff, List.forall₂_map_right_iff, List.forall₂_same]
  rintro ⟨fact, truth⟩ hmem
  have hfact := Problem.lt_factCount_of_mem_goal hmem
  simp only [h.get?_eq, Problem.variableOf?_fact hfact hhorizon]

theorem transitionVars_eq (hencoder : encoder.EncodedTo last) {vars : TransitionVars}
    {index : VariableIndex} (h : encoder.transitionVars (last + 1) = .ok (vars, index)) :
    vars = problem.transitionVars semantics last := by
  obtain ⟨hindex, hentries, -⟩ := readFrom_of_transitionVars hencoder h
  have hget := VariableIndex.get?_of_entries_eq_layout hindex hentries
  obtain ⟨⟨actions, afterActions⟩, hactions, h⟩ := except_bind_eq_ok h
  obtain ⟨⟨before, afterBefore⟩, hbefore, h⟩ := except_bind_eq_ok h
  obtain ⟨⟨after, afterFacts⟩, hafter, h⟩ := except_bind_eq_ok h
  obtain ⟨⟨aux, afterAux⟩, haux, h⟩ := except_bind_eq_ok h
  cases h
  rw [Nat.add_sub_cancel] at hactions hbefore haux
  rw [encoder.scheme_eq, Problem.exclusion_vars] at haux
  have hgivenActions := VariableIndex.handsOut_idsOf hencoder.consistent hactions
  have hgivenBefore := VariableIndex.handsOut_idsOf hgivenActions.consistent hbefore
  have hgivenAfter := VariableIndex.handsOut_idsOf hgivenBefore.consistent hafter
  have hgivenAux := VariableIndex.handsOut_idsOf hgivenAfter.consistent haux
  -- what was handed out first is found in the last index, since all later requests only add to it
  have hgrowsAfter := hgivenAfter.grows.trans hgivenAux.grows
  rw [hgivenActions.eq_map hindex (hgivenBefore.grows.trans hgrowsAfter) fun id hid =>
      (hget _ _).trans (Problem.variableOf?_action hid (Nat.lt_succ_self last)),
    hgivenBefore.eq_map hindex hgrowsAfter fun fact hfact =>
      (hget _ _).trans (Problem.variableOf?_fact hfact (Nat.le_succ last)),
    hgivenAfter.eq_map hindex hgivenAux.grows fun fact hfact =>
      (hget _ _).trans (Problem.variableOf?_fact hfact le_rfl),
    hgivenAux.eq_map hindex List.prefix_rfl fun n hn =>
      (hget _ _).trans (Problem.variableOf?_aux hn (Nat.lt_succ_self last))]
  rfl

/-- A transition that is encoded has the variables of its block. -/
theorem EncodedTo.exists_of_encodeStep (hencoder : encoder.EncodedTo last) {delta : List Clause}
    (h : encoder.encodeStep (last + 1) = .ok (delta, next)) :
    next.EncodedTo (last + 1) ∧
    (∃ index, encoder.transitionVars (last + 1) =
      .ok (problem.transitionVars semantics last, index)) ∧
    clausesOfLiterals ((problem.transitionVars semantics last).clauses problem semantics
      (TransitionScheme.of problem semantics)) = .ok delta := by
  obtain ⟨_, hnext⟩ := exists_extends hencoder h
  rw [hencoder.encodeStep_succ] at h
  obtain ⟨⟨vars, index⟩, hvars, h⟩ := except_bind_eq_ok h
  obtain ⟨found, hclauses, h⟩ := except_bind_eq_ok h
  cases h
  obtain rfl := transitionVars_eq hencoder hvars
  rw [encoder.scheme_eq] at hclauses
  exact ⟨hnext.encodedTo, ⟨index, hvars⟩, hclauses⟩

end Encoder

section Run

variable {problem : Problem} {semantics : StepSemantics} {last time : Nat} {clauses : List Clause}
  {encoder : Encoder problem semantics}

theorem exists_transition_of_encodeThrough
    (h : encodeThrough problem semantics last = .ok (clauses, encoder)) (htime : time < last) :
    ∃ earlier before delta next, encodeThrough problem semantics time = .ok (earlier, before) ∧
      before.encodeStep (time + 1) = .ok (delta, next) := by
  obtain ⟨earlier, next, hnext⟩ := Problem.Encodes.of_le ⟨clauses, encoder, h⟩ htime
  obtain ⟨⟨earlier, before⟩, hbefore, hnext⟩ := except_bind_eq_ok hnext
  obtain ⟨⟨delta, next⟩, hdelta, -⟩ := except_bind_eq_ok hnext
  exact ⟨earlier, before, delta, next, hbefore, hdelta⟩

end Run

section Exclusion

/-- Besides its variables, the ladder mentions as many auxiliaries as it has gaps to bridge. -/
theorem exists_mem_ladder_iff {vars : List Nat} {firstAux var : Nat} (hvar : var ∉ vars) :
    (∃ lits ∈ ladder vars firstAux, ∃ lit ∈ lits, lit.natAbs = var) ↔
      ∃ n, n + 1 < vars.length ∧ firstAux + n = var := by
  constructor
  · rintro ⟨lits, hlits, lit, hlit, rfl⟩
    rcases mem_ladder_iff.mp hlits with
      ⟨i, hi, rfl⟩ | ⟨i, other, hi, hother, rfl⟩ | ⟨i, other, hi, hother, rfl⟩
    · rcases List.mem_pair.mp hlit with rfl | rfl
      · exact ⟨i + 1, by omega, by rw [natAbs_literal, Nat.add_assoc]⟩
      · exact ⟨i, by omega, by rw [natAbs_literal]⟩
    all_goals
      rcases List.mem_pair.mp hlit with rfl | rfl
      · rw [natAbs_literal] at hvar
        exact absurd (List.mem_of_getElem? hother) hvar
      · exact ⟨i, hi, by rw [natAbs_literal]⟩
  · rintro ⟨n, hn, rfl⟩
    have hget : vars[n]? = some vars[n] := List.getElem?_eq_getElem (by omega)
    refine ⟨_, mem_ladder_iff.mpr (Or.inr (Or.inr ⟨n, _, hn, hget, rfl⟩)), _,
      List.mem_cons_of_mem _ List.mem_cons_self, natAbs_literal _ _⟩

variable {problem : Problem} {semantics : StepSemantics} {time : Nat}

/-- The auxiliaries of a transition are those that its exclusion clauses mention. -/
theorem mem_aux_iff_exists_mem_exclusion {var : Nat}
    (hvar : var ∉ (problem.transitionVars semantics time).actions) :
    var ∈ (problem.transitionVars semantics time).aux ↔
      ∃ lits ∈ (problem.transitionVars semantics time).exclusion semantics
        (TransitionScheme.of problem semantics).interference, ∃ lit ∈ lits, lit.natAbs = var := by
  rw [Problem.mem_aux_transitionVars]
  cases semantics with
  | sequential =>
      rw [TransitionVars.exclusion, exists_mem_ladder_iff (by simpa using hvar)]
      have hlength : (problem.transitionVars .sequential time).actions.toList.length =
          problem.actionCount := by simp [Problem.transitionVars, Problem.actionVariables]
      have hcount : problem.auxCount .sequential = problem.actionCount - 1 := rfl
      rw [hlength]
      constructor
      · rintro ⟨n, hn, rfl⟩
        refine ⟨n, by omega, ?_⟩
        rw [Problem.firstAux_transitionVars (by omega), ← Problem.auxVariable_eq_add]
      · rintro ⟨n, hn, rfl⟩
        refine ⟨n, by omega, ?_⟩
        rw [Problem.firstAux_transitionVars (by omega), ← Problem.auxVariable_eq_add]
  | parallel =>
      constructor
      · rintro ⟨n, hn, -⟩
        cases hn
      · rintro ⟨lits, hlits, lit, hlit, rfl⟩
        obtain ⟨⟨i, j⟩, hpair, rfl⟩ := List.mem_map.mp hlits
        obtain ⟨-, a, b, ha, hb, -⟩ := Problem.mem_interferingPairs.mp hpair
        have haction : ∀ id < problem.actionCount, (problem.transitionVars .parallel time).action id ∈
            (problem.transitionVars .parallel time).actions := by
          intro id hid
          rw [Problem.action_transitionVars hid, Problem.mem_actions_transitionVars]
          exact ⟨id, hid, rfl⟩
        exfalso
        apply hvar
        rcases List.mem_pair.mp hlit with rfl | rfl
        · rw [natAbs_literal]
          exact haction i (Problem.lt_actionCount ha)
        · rw [natAbs_literal]
          exact haction j (Problem.lt_actionCount hb)

end Exclusion

section ClosedForm

variable {problem : Problem} {semantics : StepSemantics} {last : Nat} {clauses : List Clause}
  {encoder : Encoder problem semantics}

/-- Once the steps 0 to `last` are encoded, every variable has the number that its entity and time
determine, and there are no others.  Each transition was encoded with the variables of its block; its
auxiliaries are consecutive and are those of its exclusion clauses.  The goal literals at an encoded
step are the variables of the goal's facts, in order and with the values that the goal asks for. -/
theorem variables_closed_form
    (hencode : encodeThrough problem semantics last = .ok (clauses, encoder)) :
    problem.auxCount semantics =
      (if semantics = .sequential ∧ 2 ≤ problem.actionCount then problem.actionCount - 1 else 0) ∧
    encoder.index.size = problem.factCount +
      last * (problem.actionCount + problem.factCount + problem.auxCount semantics) ∧
    (∀ entity time,
      encoder.index.get? entity time = problem.variableOf? semantics last entity time) ∧
    (∀ time < last, ∃ earlier before index,
      encodeThrough problem semantics time = .ok (earlier, before) ∧
      before.transitionVars (time + 1) = .ok (problem.transitionVars semantics time, index) ∧
      (∀ i var : Nat, (problem.transitionVars semantics time).aux[i]? = some var →
        var = (problem.transitionVars semantics time).aux[0]?.getD 0 + i) ∧
      ∀ var ∉ (problem.transitionVars semantics time).actions,
        var ∈ (problem.transitionVars semantics time).aux ↔
          ∃ lits ∈ (problem.transitionVars semantics time).exclusion semantics
            (TransitionScheme.of problem semantics).interference,
            ∃ lit ∈ lits, lit.natAbs = var) ∧
    ∀ horizon ≤ last, encoder.goalLiterals horizon =
      .ok (problem.goal.literals.map fun (fact, truth) =>
        literal (problem.factVariable semantics horizon fact) truth) := by
  have hencoded := encodedTo_of_encodeThrough hencode
  refine ⟨problem.auxCount_eq semantics, hencoded.size_eq, hencoded.get?_eq, fun time htime => ?_,
    fun horizon => hencoded.goalLiterals_eq⟩
  obtain ⟨earlier, before, delta, next, hbefore, hdelta⟩ :=
    exists_transition_of_encodeThrough hencode htime
  obtain ⟨-, ⟨index, hvars⟩, -⟩ := (encodedTo_of_encodeThrough hbefore).exists_of_encodeStep hdelta
  exact ⟨earlier, before, index, hbefore, hvars,
    fun i var => Problem.aux_transitionVars_consecutive,
    fun var => mem_aux_iff_exists_mem_exclusion⟩

theorem variables_closed_form_lamps :
    ∃ clauses encoder, encodeThrough lamps .sequential 2 = .ok (clauses, encoder) ∧
      encoder.index.size = 12 ∧ encoder.index.get? (.action 1) 1 = some 9 ∧
      encoder.index.get? (.fact 0) 2 = some 10 ∧ encoder.index.get? (.aux 0) 1 = some 12 ∧
      encoder.index.get? (.aux 1) 1 = none ∧ encoder.goalLiterals 1 = .ok [5, 6] := by
  obtain ⟨clauses, encoder, hencode⟩ := Encoder.exists_encodeThrough_eq_ok
    (show lamps.variablesThrough .sequential 2 ≤ variableRoom by decide)
  obtain ⟨-, hsize, hget, -, hgoal⟩ := variables_closed_form hencode
  refine ⟨clauses, encoder, hencode, hsize, ?_, ?_, ?_, ?_, hgoal 1 (by decide)⟩
  all_goals
    rw [hget]
    rfl

end ClosedForm

end BoundedPlanning
