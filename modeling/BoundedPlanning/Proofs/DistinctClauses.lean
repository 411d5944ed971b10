import BoundedPlanning.Proofs.EncodedSteps
import Mathlib.Data.Set.Insert

namespace BoundedPlanning

/-- The two lists do not have the same literals. -/
def Apart (first second : List Int) : Prop := ¬ ∀ lit, lit ∈ first ↔ lit ∈ second

section Apart

variable {first second : List Int}

theorem Apart.symm (h : Apart first second) : Apart second first :=
  fun hsame => h fun lit => (hsame lit).symm

theorem apart_of_mem {lit : Int} (h : lit ∈ first) (hother : lit ∉ second) : Apart first second :=
  fun hsame => hother ((hsame lit).mp h)

/-- Only the literals of the first list mention a variable of the given kind. -/
theorem apart_of_var {P : Nat → Prop} (h : ∃ lit ∈ first, P lit.natAbs)
    (hother : ∀ lit ∈ second, ¬ P lit.natAbs) : Apart first second := by
  obtain ⟨lit, hlit, hvar⟩ := h
  exact apart_of_mem hlit fun hmem => hother lit hmem hvar

theorem apart_pairs {a b c d : Int} (hsame : ¬ (a = c ∧ b = d)) (hcrossed : ¬ (a = d ∧ b = c)) :
    Apart [a, b] [c, d] := by
  intro h
  have hsets : ({a, b} : Set Int) = {c, d} := by
    ext lit
    simpa using h lit
  rcases Set.pair_eq_pair_iff.mp hsets with hequal | hequal
  · exact hsame hequal
  · exact hcrossed hequal

theorem literal_eq_literal_iff {var other : Nat} (hvar : 0 < var) {truth result : Bool} :
    literal var truth = literal other result ↔ var = other ∧ truth = result := by
  cases truth <;> cases result <;> simp [literal] <;> omega

/-- Lists of literals that are pairwise apart make distinct clauses. -/
theorem nodup_of_clausesOfLiterals {lists : List (List Int)} {clauses : List Clause}
    (h : clausesOfLiterals lists = .ok clauses) (hapart : lists.Pairwise Apart) :
    clauses.Nodup := by
  have hall := clausesOfLiterals_eq_ok_iff.mp h
  clear h
  induction hall with
  | nil => exact List.nodup_nil
  | @cons lits clause others rest hclause hrest ih =>
      obtain ⟨hfirst, hothers⟩ := List.pairwise_cons.mp hapart
      apply List.nodup_cons.mpr
      refine ⟨fun hmem => ?_, ih hothers⟩
      obtain ⟨other, hother, hlits⟩ :=
        exists_lits_of_mem_clauses (clausesOfLiterals_eq_ok_iff.mpr hrest) hmem
      apply hfirst other hother
      intro lit
      rw [← Clause.mem_of_ofLiterals hclause, hlits]

end Apart

section Ladder

variable {vars : List Nat} {firstAux : Nat}

theorem pairwise_apart_ladderSteps {n : Nat} (haux : 0 < firstAux) :
    (ladderSteps n firstAux).Pairwise Apart := by
  rw [ladderSteps, List.pairwise_map]
  apply List.nodup_range.imp
  intro i j hij
  apply apart_pairs
  · rw [literal_eq_literal_iff (by omega)]
    omega
  · rw [literal_eq_literal_iff (by omega)]
    simp

theorem exists_of_mem_ladderRung {n i var : Nat} {lits : List Int}
    (h : lits ∈ ladderRung n firstAux i var) (hi : i < n) :
    ∃ j truth, j + 1 < n ∧ lits = [literal var false, literal (firstAux + j) truth] := by
  rcases List.mem_append.mp h with h | h
  · split at h
    · refine ⟨i - 1, true, by omega, ?_⟩
      rw [List.mem_singleton.mp h, Nat.add_sub_assoc (by omega)]
    · cases h
  · split at h
    · exact ⟨i, false, by omega, List.mem_singleton.mp h⟩
    · cases h

theorem pairwise_apart_ladderRung {n i var : Nat} (haux : 0 < firstAux) :
    (ladderRung n firstAux i var).Pairwise Apart := by
  have hpair : 0 < i → Apart [literal var false, literal (firstAux + i - 1) true]
      [literal var false, literal (firstAux + i) false] := by
    intro hi
    apply apart_pairs
    · rintro ⟨-, h⟩
      have := ((literal_eq_literal_iff (by omega)).mp h).2
      contradiction
    · rintro ⟨h, hcrossed⟩
      rw [h] at hcrossed
      have := ((literal_eq_literal_iff (by omega)).mp hcrossed).2
      contradiction
  rw [ladderRung, List.pairwise_append]
  refine ⟨?_, ?_, ?_⟩
  · split <;> simp
  · split <;> simp
  · intro first hfirst second hsecond
    split at hfirst
    · split at hsecond
      · rw [List.mem_singleton.mp hfirst, List.mem_singleton.mp hsecond]
        exact hpair ‹_›
      · cases hsecond
    · cases hfirst

theorem pairwise_apart_ladder (haux : 0 < firstAux) (hnodup : vars.Nodup)
    (hfresh : ∀ n, n + 1 < vars.length → firstAux + n ∉ vars) :
    (ladder vars firstAux).Pairwise Apart := by
  have hrung : ∀ {var i : Nat}, (var, i) ∈ vars.zipIdx → ∀ lits ∈ ladderRung vars.length firstAux i var,
      ∃ j truth, firstAux + j ∉ vars ∧ lits = [literal var false, literal (firstAux + j) truth] := by
    intro var i hmem lits hlits
    have hi := (List.getElem?_eq_some_iff.mp (List.mk_mem_zipIdx_iff_getElem?.mp hmem)).1
    obtain ⟨j, truth, hj, rfl⟩ := exists_of_mem_ladderRung hlits hi
    exact ⟨j, truth, hfresh j hj, rfl⟩
  have hmem : ∀ {var i : Nat}, (var, i) ∈ vars.zipIdx → var ∈ vars := fun h =>
    List.mem_of_getElem? (List.mk_mem_zipIdx_iff_getElem?.mp h)
  unfold ladder
  split
  · exact List.Pairwise.nil
  · rw [List.pairwise_append, List.pairwise_flatMap]
    refine ⟨pairwise_apart_ladderSteps haux, ⟨?_, ?_⟩, ?_⟩
    · rintro ⟨var, i⟩ -
      exact pairwise_apart_ladderRung haux
    · have hdistinct : vars.zipIdx.Pairwise fun a b => a.1 ≠ b.1 := by
        rw [← List.pairwise_map, List.zipIdx_map_fst]
        exact hnodup
      apply hdistinct.imp_of_mem
      rintro ⟨var, i⟩ ⟨other, k⟩ hvar hother hne first hfirst second hsecond
      obtain ⟨j, truth, -, rfl⟩ := hrung hvar first hfirst
      obtain ⟨l, result, hl, rfl⟩ := hrung hother second hsecond
      apply apart_of_var (P := (· = var))
      · exact ⟨_, List.mem_cons_self, natAbs_literal _ _⟩
      · simp only [List.forall_mem_cons, natAbs_literal]
        refine ⟨Ne.symm hne, ?_, by simp⟩
        rintro rfl
        exact hl (hmem hvar)
    · intro first hfirst second hsecond
      obtain ⟨⟨var, i⟩, hvar, hsecond⟩ := List.mem_flatMap.mp hsecond
      obtain ⟨j, truth, -, rfl⟩ := hrung hvar second hsecond
      obtain ⟨k, hk, rfl⟩ := List.mem_map.mp hfirst
      have hk := List.mem_range.mp hk
      apply Apart.symm
      apply apart_of_var (P := (· ∈ vars))
      · exact ⟨_, List.mem_cons_self, (natAbs_literal var false).symm ▸ hmem hvar⟩
      · simp only [List.forall_mem_cons, natAbs_literal]
        exact ⟨hfresh (k + 1) (by omega), hfresh k (by omega), by simp⟩

end Ladder

namespace TransitionVars

variable {vars : TransitionVars} {problem : Problem} {semantics : StepSemantics}
  {index : VariableIndex} {time : Nat}

section Variables

theorem ReadFrom.action_injective (h : vars.ReadFrom index problem semantics time)
    (hindex : index.Consistent) {i j : Nat} (hi : i < problem.actionCount)
    (hj : j < problem.actionCount) (heq : vars.action i = vars.action j) : i = j :=
  Entity.action.inj (VariableIndex.get?_injective hindex (h.action i hi) (heq ▸ h.action j hj)).1

theorem ReadFrom.before_injective (h : vars.ReadFrom index problem semantics time)
    (hindex : index.Consistent) {fact other : Nat} (hfact : fact < problem.factCount)
    (hother : other < problem.factCount) (heq : vars.factBefore fact = vars.factBefore other) :
    fact = other :=
  Entity.fact.inj
    (VariableIndex.get?_injective hindex (h.before fact hfact) (heq ▸ h.before other hother)).1

theorem ReadFrom.after_injective (h : vars.ReadFrom index problem semantics time)
    (hindex : index.Consistent) {fact other : Nat} (hfact : fact < problem.factCount)
    (hother : other < problem.factCount) (heq : vars.factAfter fact = vars.factAfter other) :
    fact = other :=
  Entity.fact.inj
    (VariableIndex.get?_injective hindex (h.after fact hfact) (heq ▸ h.after other hother)).1

theorem ReadFrom.nodup_actions (h : vars.ReadFrom index problem semantics time)
    (hindex : index.Consistent) : vars.actions.toList.Nodup := by
  rw [List.nodup_iff_getElem?_ne_getElem?]
  intro i j hij hj heq
  rw [Array.length_toList, h.actions_size] at hj
  rw [h.getElem?_actions.mpr ⟨hj, rfl⟩] at heq
  obtain ⟨hi, hsame⟩ := h.getElem?_actions.mp heq
  exact hij.ne (h.action_injective hindex hi hj hsame)

end Variables

section Families

/-- Clauses of one action differ in the fact or in its value, those of two actions in the action. -/
theorem pairwise_apart_implications {first second : Action → List Nat} {factVar : Nat → Nat}
    (hindex : index.Consistent) (hread : vars.ReadFrom index problem semantics time)
    (hpos : ∀ fact < problem.factCount, 0 < factVar fact)
    (hinjective : ∀ fact < problem.factCount, ∀ other < problem.factCount,
      factVar fact = factVar other → fact = other)
    (hne : ∀ id < problem.actionCount, ∀ fact < problem.factCount, vars.action id ≠ factVar fact)
    (hdeclared : ∀ action ∈ problem.actions, ∀ fact ∈ first action ++ second action,
      fact < problem.factCount)
    (hnodup : ∀ action ∈ problem.actions, (first action).Nodup ∧ (second action).Nodup) :
    (problem.numberedActions.flatMap fun (action, id) =>
      (first action).map (fun fact =>
        [literal (vars.action id) false, literal (factVar fact) true]) ++
      (second action).map fun fact =>
        [literal (vars.action id) false, literal (factVar fact) false]).Pairwise Apart := by
  have hpair : ∀ {id other fact fact' : Nat} {truth result : Bool}, id < problem.actionCount →
      other < problem.actionCount → fact < problem.factCount → fact' < problem.factCount →
      id ≠ other ∨ fact ≠ fact' ∨ truth ≠ result →
      Apart [literal (vars.action id) false, literal (factVar fact) truth]
        [literal (vars.action other) false, literal (factVar fact') result] := by
    intro id other fact fact' truth result hid hother hfact hfact' hdiffer
    have haction := hread.action_pos hindex hid
    apply apart_pairs
    · rw [literal_eq_literal_iff haction, literal_eq_literal_iff (hpos fact hfact)]
      rintro ⟨⟨hsame, -⟩, hfacts, htruth⟩
      rcases hdiffer with hdiffer | hdiffer | hdiffer
      · exact hdiffer (hread.action_injective hindex hid hother hsame)
      · exact hdiffer (hinjective fact hfact fact' hfact' hfacts)
      · exact hdiffer htruth
    · rw [literal_eq_literal_iff haction]
      rintro ⟨⟨hcrossed, -⟩, -⟩
      exact hne id hid fact' hfact' hcrossed
  have hbounds : ∀ {action : Action} {id : Nat}, (action, id) ∈ problem.numberedActions →
      id < problem.actionCount ∧ ∀ fact ∈ first action ++ second action, fact < problem.factCount := by
    intro action id hnumbered
    have hget := Problem.mem_numberedActions.mp hnumbered
    exact ⟨Problem.lt_actionCount hget, hdeclared action (List.mem_of_getElem? hget)⟩
  rw [List.pairwise_flatMap]
  constructor
  · rintro ⟨action, id⟩ hnumbered
    obtain ⟨hid, hfacts⟩ := hbounds hnumbered
    obtain ⟨hfirst, hsecond⟩ := List.forall_mem_append.mp hfacts
    obtain ⟨hnodupFirst, hnodupSecond⟩ :=
      hnodup action (List.mem_of_getElem? (Problem.mem_numberedActions.mp hnumbered))
    simp only [List.pairwise_append, List.pairwise_map, List.forall_mem_map]
    refine ⟨?_, ?_, ?_⟩
    · apply hnodupFirst.imp_of_mem
      intro fact other hfact hother hdiffer
      exact hpair hid hid (hfirst fact hfact) (hfirst other hother) (Or.inr (Or.inl hdiffer))
    · apply hnodupSecond.imp_of_mem
      intro fact other hfact hother hdiffer
      exact hpair hid hid (hsecond fact hfact) (hsecond other hother) (Or.inr (Or.inl hdiffer))
    · intro fact hfact other hother
      exact hpair hid hid (hfirst fact hfact) (hsecond other hother) (by simp)
  · apply problem.pairwise_numberedActions.imp_of_mem
    rintro ⟨action, id⟩ ⟨other, id'⟩ hnumbered hnumbered' hlt lits hlits lits' hlits'
    obtain ⟨hid, hfacts⟩ := hbounds hnumbered
    obtain ⟨hid', hfacts'⟩ := hbounds hnumbered'
    obtain ⟨fact, hfact, truth, rfl⟩ := exists_of_mem_bothValues
      (f := fun fact truth => [literal (vars.action id) false, literal (factVar fact) truth])
      hlits
    obtain ⟨fact', hfact', result, rfl⟩ := exists_of_mem_bothValues
      (f := fun fact truth => [literal (vars.action id') false, literal (factVar fact) truth])
      hlits'
    exact hpair hid hid' (hfacts fact hfact) (hfacts' fact' hfact') (Or.inl hlt.ne)

theorem pairwise_apart_frame (hindex : index.Consistent)
    (hread : vars.ReadFrom index problem semantics time) :
    (vars.frame problem.factChanges).Pairwise Apart := by
  have hforeign : ∀ fact < problem.factCount, ∀ other < problem.factCount, fact ≠ other →
      ∀ truth result, ∀ ids : List Nat, (∀ id ∈ ids, id < problem.actionCount) →
      ∀ lit ∈ literal (vars.factBefore other) truth :: literal (vars.factAfter other) result ::
        ids.map (fun id => literal (vars.action id) true), ¬ lit.natAbs = vars.factBefore fact := by
    intro fact hfact other hother hne truth result ids hids
    simp only [List.forall_mem_cons, List.forall_mem_map, natAbs_literal]
    refine ⟨fun heq => ?_, (hread.before_ne_after hindex hfact hother).symm, fun id hid => ?_⟩
    · exact hne (hread.before_injective hindex hother hfact heq).symm
    · exact hread.action_ne_before hindex (hids id hid) hfact
  rw [frame, Problem.factChanges, List.flatMap_map, List.pairwise_flatMap]
  constructor
  · intro fact hfact
    have hfact := List.mem_range.mp hfact
    have hpos := hread.before_pos hindex hfact
    rw [List.pairwise_pair]
    refine apart_of_mem (List.mem_cons_self : literal (vars.factBefore fact) false ∈ _) ?_
    simp only [List.mem_cons, List.mem_map, literal_eq_literal_iff hpos, not_or, not_exists]
    refine ⟨by simp, fun h => hread.before_ne_after hindex hfact hfact h.1, ?_⟩
    rintro id ⟨hid, heq⟩
    have hsame := ((literal_eq_literal_iff hpos).mp heq.symm).1
    exact hread.action_ne_before hindex (Problem.lt_actionCount_of_mem_adders hid) hfact hsame.symm
  · apply List.nodup_range.imp_of_mem
    intro fact other hfact hother hne first hfirst second hsecond
    have hforeign := hforeign fact (List.mem_range.mp hfact) other (List.mem_range.mp hother) hne
    apply apart_of_var (P := (· = vars.factBefore fact))
    · rcases List.mem_pair.mp hfirst with rfl | rfl
      all_goals exact ⟨_, List.mem_cons_self, natAbs_literal _ _⟩
    · rcases List.mem_pair.mp hsecond with rfl | rfl
      · exact hforeign _ _ _ fun _ => Problem.lt_actionCount_of_mem_deleters
      · exact hforeign _ _ _ fun _ => Problem.lt_actionCount_of_mem_adders

theorem pairwise_apart_exclusion (hindex : index.Consistent)
    (hread : vars.ReadFrom index problem semantics time) :
    (vars.exclusion semantics
      (TransitionScheme.of problem semantics).interference).Pairwise Apart := by
  cases semantics with
  | sequential =>
      rw [exclusion]
      rcases Nat.lt_or_ge 1 problem.actionCount with hcount | hcount
      · apply pairwise_apart_ladder (hread.firstAux_pos hindex hcount)
        · exact hread.nodup_actions hindex
        · intro n hn hmem
          rw [Array.length_toList, hread.actions_size] at hn
          obtain ⟨i, hi⟩ := List.mem_iff_getElem?.mp hmem
          obtain ⟨hi, heq⟩ := hread.getElem?_actions.mp hi
          have haux := hread.aux n (show n < problem.actionCount - 1 by omega)
          cases (VariableIndex.get?_injective hindex (hread.action i hi) (heq ▸ haux)).1
      · rw [ladder, if_pos]
        · exact List.Pairwise.nil
        · rw [Array.length_toList, hread.actions_size]
          omega
  | parallel =>
      rw [exclusion, List.pairwise_map]
      apply problem.pairwise_interferingPairs.imp_of_mem
      rintro ⟨i, j⟩ ⟨k, l⟩ hfirst hsecond hlex
      obtain ⟨hij, a, b, ha, hb, -⟩ := Problem.mem_interferingPairs.mp hfirst
      obtain ⟨hkl, c, d, hc, hd, -⟩ := Problem.mem_interferingPairs.mp hsecond
      have hsame : ∀ {id other : Nat}, id < problem.actionCount → other < problem.actionCount →
          literal (vars.action id) false = literal (vars.action other) false → id = other := by
        intro id other hid hother heq
        have hvars := ((literal_eq_literal_iff (hread.action_pos hindex hid)).mp heq).1
        exact hread.action_injective hindex hid hother hvars
      have hi := Problem.lt_actionCount ha
      have hj := Problem.lt_actionCount hb
      have hk := Problem.lt_actionCount hc
      have hl := Problem.lt_actionCount hd
      apply apart_pairs
      · rintro ⟨hik, hjl⟩
        rw [hsame hi hk hik, hsame hj hl hjl] at hlex
        exact irrefl _ hlex
      · rintro ⟨hil, hjk⟩
        have := hsame hi hl hil
        have := hsame hj hk hjk
        omega

end Families

section Kinds

def IsBefore (vars : TransitionVars) (problem : Problem) (var : Nat) : Prop :=
  ∃ fact < problem.factCount, vars.factBefore fact = var

def IsAfter (vars : TransitionVars) (problem : Problem) (var : Nat) : Prop :=
  ∃ fact < problem.factCount, vars.factAfter fact = var

theorem ReadFrom.not_isBefore_action (h : vars.ReadFrom index problem semantics time)
    (hindex : index.Consistent) {id : Nat} (hid : id < problem.actionCount) :
    ¬ vars.IsBefore problem (vars.action id) := by
  rintro ⟨fact, hfact, heq⟩
  exact h.action_ne_before hindex hid hfact heq.symm

theorem ReadFrom.not_isAfter_action (h : vars.ReadFrom index problem semantics time)
    (hindex : index.Consistent) {id : Nat} (hid : id < problem.actionCount) :
    ¬ vars.IsAfter problem (vars.action id) := by
  rintro ⟨fact, hfact, heq⟩
  exact h.action_ne_after hindex hid hfact heq.symm

theorem ReadFrom.not_isAfter_before (h : vars.ReadFrom index problem semantics time)
    (hindex : index.Consistent) {fact : Nat} (hfact : fact < problem.factCount) :
    ¬ vars.IsAfter problem (vars.factBefore fact) := by
  rintro ⟨other, hother, heq⟩
  exact h.before_ne_after hindex hfact hother heq.symm

theorem ReadFrom.not_isBefore_after (h : vars.ReadFrom index problem semantics time)
    (hindex : index.Consistent) {fact : Nat} (hfact : fact < problem.factCount) :
    ¬ vars.IsBefore problem (vars.factAfter fact) := by
  rintro ⟨other, hother, heq⟩
  exact h.before_ne_after hindex hother hfact heq

theorem mentions_preconditions (hindex : index.Consistent)
    (hread : vars.ReadFrom index problem semantics time) :
    ∀ lits ∈ vars.preconditions problem, (∃ lit ∈ lits, vars.IsBefore problem lit.natAbs) ∧
      ∀ lit ∈ lits, ¬ vars.IsAfter problem lit.natAbs := by
  intro lits hlits
  constructor
  · obtain ⟨id, action, fact, truth, hget, hmem, rfl⟩ := exists_of_mem_implications hlits
    have hfact := Problem.lt_factCount_of_mem_preconditions (List.mem_of_getElem? hget) hmem
    exact ⟨_, List.mem_cons_of_mem _ List.mem_cons_self, fact, hfact, (natAbs_literal _ _).symm⟩
  · apply forall_var_implications (P := fun var => ¬ vars.IsAfter problem var) _ _ lits hlits
    · exact fun id => hread.not_isAfter_action hindex
    · intro action haction fact hmem
      exact hread.not_isAfter_before hindex
        (Problem.lt_factCount_of_mem_preconditions haction hmem)

theorem mentions_effects (hindex : index.Consistent)
    (hread : vars.ReadFrom index problem semantics time) :
    ∀ lits ∈ vars.effects problem, (∃ lit ∈ lits, vars.IsAfter problem lit.natAbs) ∧
      ∀ lit ∈ lits, ¬ vars.IsBefore problem lit.natAbs := by
  intro lits hlits
  constructor
  · obtain ⟨id, action, fact, truth, hget, hmem, rfl⟩ := exists_of_mem_implications hlits
    have hfact := Problem.lt_factCount_of_mem_effects (List.mem_of_getElem? hget) hmem
    exact ⟨_, List.mem_cons_of_mem _ List.mem_cons_self, fact, hfact, (natAbs_literal _ _).symm⟩
  · apply forall_var_implications (P := fun var => ¬ vars.IsBefore problem var) _ _ lits hlits
    · exact fun id => hread.not_isBefore_action hindex
    · intro action haction fact hmem
      exact hread.not_isBefore_after hindex (Problem.lt_factCount_of_mem_effects haction hmem)

theorem mentions_frame :
    ∀ lits ∈ vars.frame problem.factChanges, (∃ lit ∈ lits, vars.IsBefore problem lit.natAbs) ∧
      ∃ lit ∈ lits, vars.IsAfter problem lit.natAbs := by
  intro lits hlits
  obtain ⟨fact, hfact, truth, ids, -, rfl⟩ := exists_of_mem_frame hlits
  constructor
  · exact ⟨_, List.mem_cons_self, fact, hfact, (natAbs_literal _ _).symm⟩
  · exact ⟨_, List.mem_cons_of_mem _ List.mem_cons_self, fact, hfact, (natAbs_literal _ _).symm⟩

theorem mentions_exclusion (hindex : index.Consistent)
    (hread : vars.ReadFrom index problem semantics time) :
    ∀ lits ∈ vars.exclusion semantics (TransitionScheme.of problem semantics).interference,
      ∀ lit ∈ lits, ¬ vars.IsBefore problem lit.natAbs ∧ ¬ vars.IsAfter problem lit.natAbs := by
  apply forall_var_exclusion
    (P := fun var => ¬ vars.IsBefore problem var ∧ ¬ vars.IsAfter problem var) hread
  · exact fun id hid => ⟨hread.not_isBefore_action hindex hid, hread.not_isAfter_action hindex hid⟩
  · intro n hn
    constructor
    · rintro ⟨fact, hfact, heq⟩
      cases (VariableIndex.get?_injective hindex (hread.before fact hfact) (heq ▸ hread.aux n hn)).1
    · rintro ⟨fact, hfact, heq⟩
      cases (VariableIndex.get?_injective hindex (hread.after fact hfact) (heq ▸ hread.aux n hn)).1

/-- No two clauses of a transition have the same literals. -/
theorem pairwise_apart_clauses (hindex : index.Consistent)
    (hread : vars.ReadFrom index problem semantics time) :
    (vars.clauses problem semantics (TransitionScheme.of problem semantics)).Pairwise Apart := by
  have hpre := mentions_preconditions hindex hread
  have heff := mentions_effects hindex hread
  have hframe := @mentions_frame vars problem
  have hexclusion := mentions_exclusion hindex hread
  rw [clauses, List.pairwise_append, List.pairwise_append, List.pairwise_append]
  refine ⟨⟨⟨?_, ?_, ?_⟩, pairwise_apart_frame hindex hread, ?_⟩,
    pairwise_apart_exclusion hindex hread, ?_⟩
  · apply pairwise_apart_implications hindex hread
    · exact fun fact => hread.before_pos hindex
    · exact fun fact hfact other => hread.before_injective hindex hfact
    · exact fun id hid fact => hread.action_ne_before hindex hid
    · exact fun action haction fact => Problem.lt_factCount_of_mem_preconditions haction
    · intro action haction
      obtain ⟨hnormal, hnormalNeg, -⟩ := problem.actions_normal action haction
      exact ⟨hnormal.nodup, hnormalNeg.nodup⟩
  · apply pairwise_apart_implications hindex hread
    · exact fun fact => hread.after_pos hindex
    · exact fun fact hfact other => hread.after_injective hindex hfact
    · exact fun id hid fact => hread.action_ne_after hindex hid
    · exact fun action haction fact => Problem.lt_factCount_of_mem_effects haction
    · intro action haction
      obtain ⟨-, -, hnormalAdd, hnormalDel⟩ := problem.actions_normal action haction
      exact ⟨hnormalAdd.nodup, hnormalDel.nodup.filter _⟩
  · intro first hfirst second hsecond
    exact apart_of_var (hpre first hfirst).1 (heff second hsecond).2
  · intro first hfirst second hsecond
    rcases List.mem_append.mp hfirst with hfirst | hfirst
    · exact (apart_of_var (hframe second hsecond).2 (hpre first hfirst).2).symm
    · exact (apart_of_var (hframe second hsecond).1 (heff first hfirst).2).symm
  · intro first hfirst second hsecond
    obtain ⟨hbefore, hafter⟩ := forall₂_and.mp (hexclusion second hsecond)
    rcases List.mem_append.mp hfirst with hfirst | hfirst
    · rcases List.mem_append.mp hfirst with hfirst | hfirst
      · exact apart_of_var (hpre first hfirst).1 hbefore
      · exact apart_of_var (heff first hfirst).1 hafter
    · exact apart_of_var (hframe first hfirst).1 hbefore

end Kinds

end TransitionVars

end BoundedPlanning
