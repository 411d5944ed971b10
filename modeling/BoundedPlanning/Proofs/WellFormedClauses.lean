import BoundedPlanning.Proofs.Ascending
import BoundedPlanning.Proofs.Transition

namespace BoundedPlanning

/-- Literals of the variables up to a bound, of which no two oppose each other. -/
structure WellFormed (bound : Nat) (lits : List Int) : Prop where
  nonzero : 0 ∉ lits
  natAbs_le : ∀ lit ∈ lits, lit.natAbs ≤ bound
  injective : ∀ a ∈ lits, ∀ b ∈ lits, a.natAbs = b.natAbs → a = b

/-- Such literals of at least two variables. -/
structure Linking (bound : Nat) (lits : List Int) : Prop extends WellFormed bound lits where
  two_variables : ∃ a ∈ lits, ∃ b ∈ lits, a.natAbs ≠ b.natAbs

variable {bound : Nat}

/-- However often each literal was given, a clause that links variables has two literals. -/
theorem Linking.two_le_length {lits found : List Int} (h : Linking bound lits)
    (hmem : ∀ lit, lit ∈ found ↔ lit ∈ lits) : 2 ≤ found.length := by
  obtain ⟨a, ha, b, hb, hne⟩ := h.two_variables
  exact one_lt_length_of_ne ((hmem a).mpr ha) ((hmem b).mpr hb) fun heq => hne (heq ▸ rfl)

theorem wellFormed_map_literal {α : Type} {items : List α} {var : α → Nat} {truth : Bool}
    (hvar : ∀ item ∈ items, 0 < var item ∧ var item ≤ bound) :
    WellFormed bound (items.map fun item => literal (var item) truth) := by
  constructor
  · intro hzero
    obtain ⟨item, hitem, hlit⟩ := List.mem_map.mp hzero
    exact literal_ne_zero (hvar item hitem).1 truth hlit
  · intro lit hlit
    obtain ⟨item, hitem, rfl⟩ := List.mem_map.mp hlit
    rw [natAbs_literal]
    exact (hvar item hitem).2
  · intro a ha b hb heq
    obtain ⟨item, -, rfl⟩ := List.mem_map.mp ha
    obtain ⟨other, -, rfl⟩ := List.mem_map.mp hb
    rw [natAbs_literal, natAbs_literal] at heq
    rw [heq]

theorem wellFormed_cons_literal {rest : List Int} {var : Nat} {truth : Bool}
    (hvar : 0 < var ∧ var ≤ bound) (hnew : ∀ lit ∈ rest, var ≠ lit.natAbs)
    (hrest : WellFormed bound rest) : WellFormed bound (literal var truth :: rest) := by
  constructor
  · rw [List.mem_cons, not_or]
    exact ⟨(literal_ne_zero hvar.1 truth).symm, hrest.nonzero⟩
  · rw [List.forall_mem_cons, natAbs_literal]
    exact ⟨hvar.2, hrest.natAbs_le⟩
  · intro a ha b hb heq
    rcases List.mem_cons.mp ha with rfl | ha
    · rcases List.mem_cons.mp hb with rfl | hb
      · rfl
      · rw [natAbs_literal] at heq
        exact absurd heq (hnew b hb)
    · rcases List.mem_cons.mp hb with rfl | hb
      · rw [natAbs_literal] at heq
        exact absurd heq.symm (hnew a ha)
      · exact hrest.injective a ha b hb heq

theorem wellFormed_singleton {var : Nat} {truth : Bool} (hvar : 0 < var ∧ var ≤ bound) :
    WellFormed bound [literal var truth] :=
  wellFormed_cons_literal hvar (by simp) (by constructor <;> simp)

theorem linking_cons_cons {rest : List Int} {var other : Nat} {truth result : Bool}
    (hvar : 0 < var ∧ var ≤ bound) (hne : var ≠ other) (hnew : ∀ lit ∈ rest, var ≠ lit.natAbs)
    (hrest : WellFormed bound (literal other result :: rest)) :
    Linking bound (literal var truth :: literal other result :: rest) where
  toWellFormed := by
    refine wellFormed_cons_literal hvar ?_ hrest
    rw [List.forall_mem_cons, natAbs_literal]
    exact ⟨hne, hnew⟩
  two_variables := by
    refine ⟨_, List.mem_cons_self, _, List.mem_cons_of_mem _ List.mem_cons_self, ?_⟩
    rwa [natAbs_literal, natAbs_literal]

theorem linking_pair {var other : Nat} {truth result : Bool} (hvar : 0 < var ∧ var ≤ bound)
    (hother : 0 < other ∧ other ≤ bound) (hne : var ≠ other) :
    Linking bound [literal var truth, literal other result] :=
  linking_cons_cons hvar hne (by simp) (wellFormed_singleton hother)

namespace TransitionVars

variable {vars : TransitionVars} {problem : Problem} {semantics : StepSemantics}
  {index : VariableIndex} {time : Nat}

theorem exists_of_mem_bothValues {first second : List Nat} {f : Nat → Bool → List Int}
    {lits : List Int}
    (h : lits ∈ first.map (fun fact => f fact true) ++ second.map fun fact => f fact false) :
    ∃ fact ∈ first ++ second, ∃ truth, lits = f fact truth := by
  rcases List.mem_append.mp h with h | h
  · obtain ⟨fact, hfact, rfl⟩ := List.mem_map.mp h
    exact ⟨fact, List.mem_append_left _ hfact, true, rfl⟩
  · obtain ⟨fact, hfact, rfl⟩ := List.mem_map.mp h
    exact ⟨fact, List.mem_append_right _ hfact, false, rfl⟩

/-- The precondition clauses and the effect clauses have one form. -/
theorem exists_of_mem_implications {first second : Action → List Nat} {factVar : Nat → Nat}
    {lits : List Int}
    (h : lits ∈ problem.numberedActions.flatMap (fun (action, id) =>
        (first action).map (fun fact =>
          [literal (vars.action id) false, literal (factVar fact) true]) ++
        (second action).map fun fact =>
          [literal (vars.action id) false, literal (factVar fact) false])) :
    ∃ id action fact truth, problem.action? id = some action ∧
      fact ∈ first action ++ second action ∧
      lits = [literal (vars.action id) false, literal (factVar fact) truth] := by
  obtain ⟨⟨action, id⟩, hnumbered, hlits⟩ := List.mem_flatMap.mp h
  obtain ⟨fact, hfact, truth, rfl⟩ := exists_of_mem_bothValues
    (f := fun fact truth => [literal (vars.action id) false, literal (factVar fact) truth]) hlits
  exact ⟨id, action, fact, truth, Problem.mem_numberedActions.mp hnumbered, hfact, rfl⟩

theorem exists_of_mem_frame {lits : List Int} (h : lits ∈ vars.frame problem.factChanges) :
    ∃ fact < problem.factCount, ∃ truth, ∃ ids : List Nat, (∀ id ∈ ids, id < problem.actionCount) ∧
      lits = literal (vars.factBefore fact) truth :: literal (vars.factAfter fact) (!truth) ::
        ids.map fun id => literal (vars.action id) true := by
  obtain ⟨change, hchange, hlits⟩ := List.mem_flatMap.mp h
  obtain ⟨fact, hfact, rfl⟩ := List.mem_map.mp hchange
  refine ⟨fact, List.mem_range.mp hfact, ?_⟩
  rcases List.mem_pair.mp hlits with rfl | rfl
  · exact ⟨false, _, fun _ => Problem.lt_actionCount_of_mem_deleters, rfl⟩
  · exact ⟨true, _, fun _ => Problem.lt_actionCount_of_mem_adders, rfl⟩

section Mentioned

variable {P : Nat → Prop}

/-- What holds of the variables of actions and facts holds of all that the precondition clauses, or
the effect clauses, mention. -/
theorem forall_var_implications {first second : Action → List Nat} {factVar : Nat → Nat}
    (haction : ∀ id < problem.actionCount, P (vars.action id))
    (hfact : ∀ action ∈ problem.actions, ∀ fact ∈ first action ++ second action,
      P (factVar fact)) :
    ∀ lits ∈ problem.numberedActions.flatMap (fun (action, id) =>
        (first action).map (fun fact =>
          [literal (vars.action id) false, literal (factVar fact) true]) ++
        (second action).map fun fact =>
          [literal (vars.action id) false, literal (factVar fact) false]),
      ∀ lit ∈ lits, P lit.natAbs := by
  intro lits hlits
  obtain ⟨id, action, fact, truth, hget, hmem, rfl⟩ := exists_of_mem_implications hlits
  simp only [List.forall_mem_cons, natAbs_literal]
  exact ⟨haction id (Problem.lt_actionCount hget),
    hfact action (List.mem_of_getElem? hget) fact hmem, by simp⟩

theorem forall_var_frame (haction : ∀ id < problem.actionCount, P (vars.action id))
    (hbefore : ∀ fact < problem.factCount, P (vars.factBefore fact))
    (hafter : ∀ fact < problem.factCount, P (vars.factAfter fact)) :
    ∀ lits ∈ vars.frame problem.factChanges, ∀ lit ∈ lits, P lit.natAbs := by
  intro lits hlits
  obtain ⟨fact, hfact, truth, ids, hids, rfl⟩ := exists_of_mem_frame hlits
  simp only [List.forall_mem_cons, List.forall_mem_map, natAbs_literal]
  exact ⟨hbefore fact hfact, hafter fact hfact, fun id hid => haction id (hids id hid)⟩

theorem forall_var_linking (haction : ∀ id < problem.actionCount, P (vars.action id))
    (hbefore : ∀ fact < problem.factCount, P (vars.factBefore fact))
    (hafter : ∀ fact < problem.factCount, P (vars.factAfter fact)) :
    ∀ lits ∈ vars.preconditions problem ++ vars.effects problem ++ vars.frame problem.factChanges,
      ∀ lit ∈ lits, P lit.natAbs := by
  rw [List.forall_mem_append, List.forall_mem_append]
  refine ⟨⟨?_, ?_⟩, forall_var_frame haction hbefore hafter⟩
  · apply forall_var_implications haction
    intro action hmem fact hfact
    exact hbefore fact (Problem.lt_factCount_of_mem_preconditions hmem hfact)
  · apply forall_var_implications haction
    intro action hmem fact hfact
    exact hafter fact (Problem.lt_factCount_of_mem_effects hmem hfact)

/-- What holds of the variables of actions and auxiliaries holds of all that the exclusion clauses
mention. -/
theorem forall_var_exclusion (hread : vars.ReadFrom index problem semantics time)
    (haction : ∀ id < problem.actionCount, P (vars.action id))
    (haux : ∀ n < problem.auxCount semantics, P (vars.aux[0]?.getD 0 + n)) :
    ∀ lits ∈ vars.exclusion semantics (TransitionScheme.of problem semantics).interference,
      ∀ lit ∈ lits, P lit.natAbs := by
  intro lits hlits
  cases semantics with
  | sequential =>
      have hbelow : ∀ n, n + 1 < vars.actions.toList.length → P (vars.aux[0]?.getD 0 + n) := by
        intro n hn
        rw [Array.length_toList, hread.actions_size] at hn
        exact haux n (show n < problem.actionCount - 1 by omega)
      have hvar : ∀ {i var : Nat}, vars.actions.toList[i]? = some var → P var := by
        intro i var hget
        obtain ⟨hi, rfl⟩ := hread.getElem?_actions.mp hget
        exact haction i hi
      rcases mem_ladder_iff.mp hlits with
        ⟨n, hn, rfl⟩ | ⟨n, var, hn, hget, rfl⟩ | ⟨n, var, hn, hget, rfl⟩
      · simp only [List.forall_mem_cons, natAbs_literal]
        exact ⟨hbelow (n + 1) (by omega), hbelow n (by omega), by simp⟩
      all_goals
        simp only [List.forall_mem_cons, natAbs_literal]
        exact ⟨hvar hget, hbelow n hn, by simp⟩
  | parallel =>
      obtain ⟨⟨i, j⟩, hpair, rfl⟩ := List.mem_map.mp hlits
      obtain ⟨-, a, b, ha, hb, -⟩ := Problem.mem_interferingPairs.mp hpair
      simp only [List.forall_mem_cons, natAbs_literal]
      exact ⟨haction i (Problem.lt_actionCount ha), haction j (Problem.lt_actionCount hb), by simp⟩

end Mentioned

theorem linking_implications {first second : Action → List Nat} {factVar : Nat → Nat}
    (haction : ∀ id < problem.actionCount, 0 < vars.action id ∧ vars.action id ≤ bound)
    (hfact : ∀ action ∈ problem.actions, ∀ fact ∈ first action ++ second action,
      (0 < factVar fact ∧ factVar fact ≤ bound) ∧
        ∀ id < problem.actionCount, vars.action id ≠ factVar fact) :
    ∀ lits ∈ problem.numberedActions.flatMap (fun (action, id) =>
        (first action).map (fun fact =>
          [literal (vars.action id) false, literal (factVar fact) true]) ++
        (second action).map fun fact =>
          [literal (vars.action id) false, literal (factVar fact) false]),
      Linking bound lits := by
  intro lits hlits
  obtain ⟨id, action, fact, truth, hget, hmem, rfl⟩ := exists_of_mem_implications hlits
  have hid := Problem.lt_actionCount hget
  obtain ⟨hbounds, hne⟩ := hfact action (List.mem_of_getElem? hget) fact hmem
  exact linking_pair (haction id hid) hbounds (hne id hid)

theorem ReadFrom.action_ne_before (h : vars.ReadFrom index problem semantics time)
    (hindex : index.Consistent) {id fact : Nat} (hid : id < problem.actionCount)
    (hfact : fact < problem.factCount) : vars.action id ≠ vars.factBefore fact := by
  intro heq
  have hsame := VariableIndex.get?_injective hindex (h.action id hid) (heq ▸ h.before fact hfact)
  cases hsame.1

theorem ReadFrom.action_ne_after (h : vars.ReadFrom index problem semantics time)
    (hindex : index.Consistent) {id fact : Nat} (hid : id < problem.actionCount)
    (hfact : fact < problem.factCount) : vars.action id ≠ vars.factAfter fact := by
  intro heq
  have hsame := VariableIndex.get?_injective hindex (h.action id hid) (heq ▸ h.after fact hfact)
  cases hsame.1

theorem ReadFrom.before_ne_after (h : vars.ReadFrom index problem semantics time)
    (hindex : index.Consistent) {fact other : Nat} (hfact : fact < problem.factCount)
    (hother : other < problem.factCount) : vars.factBefore fact ≠ vars.factAfter other := by
  intro heq
  have hsame := VariableIndex.get?_injective hindex (h.before fact hfact)
    (heq ▸ h.after other hother)
  omega

theorem linking_frame (hindex : index.Consistent)
    (hread : vars.ReadFrom index problem semantics time) :
    ∀ lits ∈ vars.frame problem.factChanges, Linking index.size lits := by
  intro lits hlits
  obtain ⟨fact, hfact, truth, ids, hids, rfl⟩ := exists_of_mem_frame hlits
  refine linking_cons_cons (VariableIndex.get?_bounds hindex (hread.before fact hfact))
    (hread.before_ne_after hindex hfact hfact) ?_
    (wellFormed_cons_literal (VariableIndex.get?_bounds hindex (hread.after fact hfact)) ?_
      (wellFormed_map_literal fun id hid =>
        VariableIndex.get?_bounds hindex (hread.action id (hids id hid))))
  · rw [List.forall_mem_map]
    intro id hid
    rw [natAbs_literal]
    exact (hread.action_ne_before hindex (hids id hid) hfact).symm
  · rw [List.forall_mem_map]
    intro id hid
    rw [natAbs_literal]
    exact (hread.action_ne_after hindex (hids id hid) hfact).symm

theorem linking_exclusion (hindex : index.Consistent)
    (hread : vars.ReadFrom index problem semantics time) :
    ∀ lits ∈ vars.exclusion semantics (TransitionScheme.of problem semantics).interference,
      Linking index.size lits := by
  cases semantics with
  | sequential =>
      have haux : ∀ n, n + 1 < vars.actions.toList.length →
          index.get? (.aux n) time = some (vars.aux[0]?.getD 0 + n) := by
        intro n hn
        rw [Array.length_toList, hread.actions_size] at hn
        exact hread.aux n (show n < problem.actionCount - 1 by omega)
      have hrung : ∀ n i var : Nat, n + 1 < vars.actions.toList.length →
          vars.actions.toList[i]? = some var → ∀ truth,
            Linking index.size
              [literal var false, literal (vars.aux[0]?.getD 0 + n) truth] := by
        intro n i var hn hvar truth
        obtain ⟨hi, rfl⟩ := hread.getElem?_actions.mp hvar
        refine linking_pair (VariableIndex.get?_bounds hindex (hread.action i hi))
          (VariableIndex.get?_bounds hindex (haux n hn)) fun heq => ?_
        have hsame := VariableIndex.get?_injective hindex (hread.action i hi) (heq ▸ haux n hn)
        cases hsame.1
      intro lits hlits
      rcases mem_ladder_iff.mp hlits with
        ⟨n, hn, rfl⟩ | ⟨n, var, hn, hvar, rfl⟩ | ⟨n, var, hn, hvar, rfl⟩
      · exact linking_pair (VariableIndex.get?_bounds hindex (haux (n + 1) (by omega)))
          (VariableIndex.get?_bounds hindex (haux n (by omega))) (by omega)
      · exact hrung n (n + 1) var hn hvar true
      · exact hrung n n var hn hvar false
  | parallel =>
      intro lits hlits
      obtain ⟨⟨i, j⟩, hpair, rfl⟩ := List.mem_map.mp hlits
      obtain ⟨hij, a, b, ha, hb, -⟩ := Problem.mem_interferingPairs.mp hpair
      have hi := hread.action i (Problem.lt_actionCount ha)
      have hj := hread.action j (Problem.lt_actionCount hb)
      refine linking_pair (VariableIndex.get?_bounds hindex hi)
        (VariableIndex.get?_bounds hindex hj) fun heq => ?_
      have hsame := VariableIndex.get?_injective hindex hi (heq ▸ hj)
      have := Entity.action.inj hsame.1
      omega

theorem linking_clauses (hindex : index.Consistent)
    (hread : vars.ReadFrom index problem semantics time) :
    ∀ lits ∈ vars.clauses problem semantics (TransitionScheme.of problem semantics),
      Linking index.size lits := by
  have haction : ∀ id < problem.actionCount, 0 < vars.action id ∧ vars.action id ≤ index.size :=
    fun id hid => VariableIndex.get?_bounds hindex (hread.action id hid)
  rw [clauses, List.forall_mem_append, List.forall_mem_append, List.forall_mem_append]
  refine ⟨⟨⟨?_, ?_⟩, linking_frame hindex hread⟩, linking_exclusion hindex hread⟩
  · refine linking_implications haction fun action hmem fact hfact => ?_
    have hdeclared := Problem.lt_factCount_of_mem_preconditions hmem hfact
    exact ⟨VariableIndex.get?_bounds hindex (hread.before fact hdeclared),
      fun id hid => hread.action_ne_before hindex hid hdeclared⟩
  · refine linking_implications haction fun action hmem fact hfact => ?_
    have hdeclared := Problem.lt_factCount_of_mem_effects hmem hfact
    exact ⟨VariableIndex.get?_bounds hindex (hread.after fact hdeclared),
      fun id hid => hread.action_ne_after hindex hid hdeclared⟩

end TransitionVars

end BoundedPlanning
