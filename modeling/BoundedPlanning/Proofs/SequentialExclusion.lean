import BoundedPlanning.Proofs.AccumulatedFormula

namespace BoundedPlanning

section Separation

variable {problem : Problem} {semantics : StepSemantics} {last time n : Nat} {lits : List Int}
  {lit : Int}

theorem ne_auxVariable {entity : Entity} {step var : Nat} (hn : n < problem.auxCount semantics)
    (htime : time < last) (h : problem.variableOf? semantics last entity step = some var)
    (hne : (entity, step) ≠ (.aux n, time)) : var ≠ problem.auxVariable semantics time n := by
  rintro rfl
  exact hne (variableOf?_injective h (Problem.variableOf?_aux hn htime))

theorem ne_auxVariable_of_mem_initialLiterals (hn : n < problem.auxCount semantics)
    (htime : time < last) (hlits : lits ∈ problem.initialLiterals semantics) (hlit : lit ∈ lits) :
    lit.natAbs ≠ problem.auxVariable semantics time n := by
  obtain ⟨entity, hentity, hvar⟩ := entity_of_mem_initialLiterals hlits hlit
  obtain ⟨fact, -, rfl⟩ := Problem.mem_factEntities.mp hentity
  exact ne_auxVariable hn htime hvar (by simp)

theorem ne_auxVariable_of_linked {step var : Nat} (hn : n < problem.auxCount semantics)
    (htime : time < last) (h : problem.Linked semantics last step var) :
    var ≠ problem.auxVariable semantics time n := by
  obtain ⟨entity, stepAt, hvar, hkind⟩ := h
  apply ne_auxVariable hn htime hvar
  rcases hkind with ⟨hentity, -⟩ | ⟨hentity, -⟩
  · obtain ⟨id, -, rfl⟩ := Problem.mem_actionEntities.mp hentity
    simp
  · obtain ⟨fact, -, rfl⟩ := Problem.mem_factEntities.mp hentity
    simp

theorem ne_auxVariable_of_mem_transitionLiterals {step : Nat} (hn : n < problem.auxCount semantics)
    (htime : time < last) (hstep : step < last) (hne : step ≠ time)
    (hlits : lits ∈ problem.transitionLiterals semantics step) (hlit : lit ∈ lits) :
    lit.natAbs ≠ problem.auxVariable semantics time n := by
  rcases List.mem_append.mp hlits with hlits | hlits
  · exact ne_auxVariable_of_linked hn htime (linked_of_mem_linkingLiterals hstep hlits hlit)
  · obtain ⟨entity, hvar, -⟩ := entity_of_mem_exclusionLiterals hstep hlits hlit
    exact ne_auxVariable hn htime hvar (by simp [hne])

theorem ne_auxVariable_of_mem_formula (hn : n < problem.auxCount semantics) (htime : time < last)
    (hlits : lits ∈ problem.formula semantics time) (hlit : lit ∈ lits) :
    lit.natAbs ≠ problem.auxVariable semantics time n := by
  rcases List.mem_append.mp hlits with hlits | hlits
  · exact ne_auxVariable_of_mem_initialLiterals hn htime hlits hlit
  · obtain ⟨step, hstep, hlits⟩ := List.mem_flatMap.mp hlits
    have hstep := List.mem_range.mp hstep
    exact ne_auxVariable_of_mem_transitionLiterals hn htime (hstep.trans htime) hstep.ne hlits hlit

theorem ne_auxVariable_before_exclusion (hn : n < problem.auxCount semantics) (htime : time < last)
    (hlits : lits ∈ problem.formula semantics time ++ problem.linkingLiterals semantics time)
    (hlit : lit ∈ lits) : lit.natAbs ≠ problem.auxVariable semantics time n := by
  rcases List.mem_append.mp hlits with hlits | hlits
  · exact ne_auxVariable_of_mem_formula hn htime hlits hlit
  · exact ne_auxVariable_of_linked hn htime (linked_of_mem_linkingLiterals htime hlits hlit)

theorem ne_auxVariable_after_exclusion (hn : n < problem.auxCount semantics) (htime : time < last)
    (hlits : lits ∈ (List.range' (time + 1) (last - (time + 1))).flatMap
      (problem.transitionLiterals semantics))
    (hlit : lit ∈ lits) : lit.natAbs ≠ problem.auxVariable semantics time n := by
  obtain ⟨step, hstep, hlits⟩ := List.mem_flatMap.mp hlits
  have hstep := List.mem_range'_1.mp hstep
  exact ne_auxVariable_of_mem_transitionLiterals hn htime (by omega) (by omega) hlits hlit

end Separation

section Ladder

variable {problem : Problem} {time : Nat} {exclusion : List Clause}

theorem exclusionLiterals_sequential :
    problem.exclusionLiterals .sequential time =
      ladder (problem.actionVariables .sequential time)
        (problem.auxVariable .sequential time 0) := by
  have hlength : (problem.actionVariables .sequential time).length = problem.actionCount := by
    simp [Problem.actionVariables]
  rcases Nat.lt_or_ge problem.actionCount 2 with hfew | hmany
  · have hshort : ∀ firstAux, ladder (problem.actionVariables .sequential time) firstAux = [] :=
      fun _ => if_pos (hlength.trans_lt hfew)
    rw [Problem.exclusionLiterals, TransitionVars.exclusion, hshort]
    exact hshort _
  · have haux : 0 < problem.auxCount .sequential := Nat.sub_pos_of_lt hmany
    rw [Problem.exclusionLiterals, TransitionVars.exclusion, Problem.firstAux_transitionVars haux]
    rfl

theorem satisfies_exclusion_iff
    (hexclusion : clausesOfLiterals (problem.exclusionLiterals .sequential time) = .ok exclusion)
    {value : Valuation} :
    (∀ clause ∈ exclusion, value.Satisfies clause.literals) ↔
      ∀ lits ∈ ladder (problem.actionVariables .sequential time)
        (problem.auxVariable .sequential time 0), value.Satisfies lits := by
  rw [satisfies_clausesOfLiterals_iff hexclusion, exclusionLiterals_sequential]

theorem forall_mem_actionVariables {P : Nat → Prop} :
    (∀ var ∈ problem.actionVariables .sequential time, P var) ↔
      ∀ id < problem.actionCount, P (problem.actionVariable .sequential time id) := by
  simp [Problem.actionVariables]

theorem actionVariables_pos : ∀ var ∈ problem.actionVariables .sequential time, 0 < var :=
  forall_mem_actionVariables.mpr fun _ _ => Nat.succ_pos _

/-- Values of the actions extend to the auxiliaries exactly when at most one action is taken. -/
theorem exists_satisfies_exclusion_iff
    (hexclusion : clausesOfLiterals (problem.exclusionLiterals .sequential time) = .ok exclusion)
    (truth : Nat → Bool) :
    (∃ extended : Nat → Bool,
      (∀ id < problem.actionCount, extended (problem.actionVariable .sequential time id) =
        truth (problem.actionVariable .sequential time id)) ∧
      ∀ clause ∈ exclusion, (Valuation.total extended).Satisfies clause.literals) ↔
    ∀ i < problem.actionCount, ∀ j < problem.actionCount,
      truth (problem.actionVariable .sequential time i) = true →
      truth (problem.actionVariable .sequential time j) = true → i = j := by
  have hfresh : ∀ i, i + 1 < (problem.actionVariables .sequential time).length →
      problem.auxVariable .sequential time 0 + i ∉ problem.actionVariables .sequential time := by
    intro i _ hmem
    obtain ⟨id, hget⟩ := List.mem_iff_getElem?.mp hmem
    obtain ⟨hid, hvar⟩ := Problem.getElem?_actionVariables.mp hget
    rw [Problem.actionVariable, Problem.auxVariable] at hvar
    omega
  have hladder := @exists_satisfies_ladder_iff _ _ truth actionVariables_pos (Nat.succ_pos _) hfresh
  simp only [forall_mem_actionVariables, Problem.getElem?_actionVariables] at hladder
  simp only [satisfies_exclusion_iff hexclusion]
  apply hladder.trans
  constructor
  · intro hone i hi j hj
    exact hone i j _ _ ⟨hi, rfl⟩ ⟨hj, rfl⟩
  · rintro hone i j _ _ ⟨hi, rfl⟩ ⟨hj, rfl⟩
    exact hone i hi j hj

/-- An action that is taken determines the auxiliaries: those below it are true, all others are
false. -/
theorem auxVariable_of_satisfies_exclusion
    (hexclusion : clausesOfLiterals (problem.exclusionLiterals .sequential time) = .ok exclusion)
    {truth : Nat → Bool}
    (h : ∀ clause ∈ exclusion, (Valuation.total truth).Satisfies clause.literals) {id n : Nat}
    (hid : id < problem.actionCount)
    (htrue : truth (problem.actionVariable .sequential time id) = true)
    (hn : n < problem.auxCount .sequential) :
    truth (problem.auxVariable .sequential time n) = decide (n < id) := by
  have hladder := (satisfies_exclusion_iff hexclusion).mp h
  have hvar : (problem.actionVariables .sequential time)[id]? =
      some (problem.actionVariable .sequential time id) :=
    Problem.getElem?_actionVariables.mpr ⟨hid, rfl⟩
  have hvalue := congrArg some htrue
  rw [Problem.auxVariable_eq_add]
  apply Option.some.inj
  rcases Nat.lt_or_ge n id with hbelow | habove
  · rw [decide_eq_true hbelow]
    exact aux_of_ladder actionVariables_pos (Nat.succ_pos _) hladder hvar hvalue hbelow
  · rw [decide_eq_false (Nat.not_lt.mpr habove)]
    apply aux_eq_false_of_ladder actionVariables_pos (Nat.succ_pos _) hladder hvar hvalue habove
    have hcount : problem.auxCount .sequential = problem.actionCount - 1 := rfl
    simp only [Problem.actionVariables, List.length_map, List.length_range]
    omega

end Ladder

section AtMostOneAction

variable {problem : Problem} {last : Nat} {clauses : List Clause}
  {encoder : Encoder problem .sequential}

/-- The exclusion clauses of a sequential step, which stand behind the frame clauses of its
transition, can be satisfied by some values of the auxiliaries exactly when at most one action is
taken.  An action that is taken determines these values.  No other clause of the accumulated formula
mentions the auxiliaries of the step, whatever its horizon. -/
theorem sequential_exclusion_exact
    (hencode : encodeThrough problem .sequential last = .ok (clauses, encoder)) {time : Nat}
    (htime : time < last) :
    ∃ earlier exclusion later, clauses = earlier ++ exclusion ++ later ∧
      earlier.length = problem.clausesThrough .sequential time + problem.actionClauseCount +
        2 * problem.factCount ∧
      clausesOfLiterals (ladder (problem.actionVariables .sequential time)
        (problem.auxVariable .sequential time 0)) = .ok exclusion ∧
      (∀ id < problem.actionCount, encoder.index.get? (.action id) time =
        some (problem.actionVariable .sequential time id)) ∧
      (∀ n < problem.actionCount - 1, encoder.index.get? (.aux n) time =
        some (problem.auxVariable .sequential time n)) ∧
      (∀ truth : Nat → Bool,
        (∃ extended : Nat → Bool,
          (∀ id < problem.actionCount, extended (problem.actionVariable .sequential time id) =
            truth (problem.actionVariable .sequential time id)) ∧
          ∀ clause ∈ exclusion, (Valuation.total extended).Satisfies clause.literals) ↔
        ∀ i < problem.actionCount, ∀ j < problem.actionCount,
          truth (problem.actionVariable .sequential time i) = true →
          truth (problem.actionVariable .sequential time j) = true → i = j) ∧
      (∀ truth : Nat → Bool,
        (∀ clause ∈ exclusion, (Valuation.total truth).Satisfies clause.literals) →
        ∀ id < problem.actionCount, truth (problem.actionVariable .sequential time id) = true →
        ∀ n < problem.actionCount - 1,
          truth (problem.auxVariable .sequential time n) = decide (n < id)) ∧
      ∀ clause ∈ earlier ++ later, ∀ lit ∈ clause.literals, ∀ n < problem.actionCount - 1,
        lit.natAbs ≠ problem.auxVariable .sequential time n := by
  have hget := (encodedTo_of_encodeThrough hencode).get?_eq
  have hformula := clausesOfLiterals_formula hencode
  rw [Problem.formula_eq_append htime] at hformula
  obtain ⟨front, later, hfront, hlater, rfl⟩ := clausesOfLiterals_append_eq_ok_iff.mp hformula
  obtain ⟨earlier, exclusion, hearlier, hexclusion, rfl⟩ :=
    clausesOfLiterals_append_eq_ok_iff.mp hfront
  refine ⟨earlier, exclusion, later, rfl, ?_, exclusionLiterals_sequential ▸ hexclusion, ?_, ?_,
    exists_satisfies_exclusion_iff hexclusion, ?_, ?_⟩
  · obtain ⟨before, beforeEncoder, delta, next, hbefore, -⟩ :=
      exists_transition_of_encodeThrough hencode htime
    rw [length_of_clausesOfLiterals hearlier, List.length_append,
      ← length_of_clausesOfLiterals (clausesOfLiterals_formula hbefore),
      Encoder.length_of_encodeThrough hbefore, Problem.length_linkingLiterals, Nat.add_assoc]
  · intro id hid
    rw [hget, Problem.variableOf?_action hid htime]
  · intro n hn
    rw [hget, Problem.variableOf?_aux hn htime]
  · intro truth hsatisfied id hid htrue n hn
    exact auxVariable_of_satisfies_exclusion hexclusion hsatisfied hid htrue hn
  · intro clause hclause lit hlit n hn
    rcases List.mem_append.mp hclause with hclause | hclause
    · obtain ⟨lits, hlits, hmem⟩ := exists_lits_of_mem_clauses hearlier hclause
      exact ne_auxVariable_before_exclusion hn htime hlits ((hmem lit).mp hlit)
    · obtain ⟨lits, hlits, hmem⟩ := exists_lits_of_mem_clauses hlater hclause
      exact ne_auxVariable_after_exclusion hn htime hlits ((hmem lit).mp hlit)

theorem sequential_exclusion_exact_door :
    ∃ clauses encoder earlier exclusion later,
      encodeThrough door .sequential 2 = .ok (clauses, encoder) ∧
      clauses = earlier ++ exclusion ++ later ∧ exclusion.length = 11 ∧
      encoder.index.get? (.action 3) 1 = some 19 ∧ encoder.index.get? (.aux 2) 1 = some 26 ∧
      (∃ truth : Nat → Bool, truth 19 = true ∧
        ∀ clause ∈ exclusion, (Valuation.total truth).Satisfies clause.literals) ∧
      ∀ truth : Nat → Bool,
        (∀ clause ∈ exclusion, (Valuation.total truth).Satisfies clause.literals) →
        truth 19 = true → truth 16 = false ∧ truth 26 = true ∧ truth 27 = false := by
  obtain ⟨clauses, encoder, hencode⟩ := Encoder.exists_encodeThrough_eq_ok
    (show door.variablesThrough .sequential 2 ≤ variableRoom by decide)
  obtain ⟨earlier, exclusion, later, hsplit, -, hexclusion, haction, haux, hone, hdetermined, -⟩ :=
    sequential_exclusion_exact hencode (show 1 < 2 by decide)
  refine ⟨clauses, encoder, earlier, exclusion, later, hencode, hsplit,
    length_of_clausesOfLiterals hexclusion, haction 3 (by decide), haux 2 (by decide), ?_, ?_⟩
  · obtain ⟨extended, hagree, hsatisfied⟩ := (hone fun var => var == 19).mpr (by decide)
    exact ⟨extended, hagree 3 (by decide), hsatisfied⟩
  · intro truth hsatisfied htrue
    refine ⟨?_, hdetermined truth hsatisfied 3 (by decide) htrue 2 (by decide),
      hdetermined truth hsatisfied 3 (by decide) htrue 3 (by decide)⟩
    have honly := (hone truth).mp ⟨truth, fun _ _ => rfl, hsatisfied⟩
    rw [← Bool.not_eq_true]
    intro hother
    cases honly 3 (by decide) 0 (by decide) htrue hother

end AtMostOneAction

end BoundedPlanning
