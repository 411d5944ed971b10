import BoundedPlanning.Proofs.AtMostOne
import BoundedPlanning.Proofs.Interference
import BoundedPlanning.Proofs.Layout

namespace BoundedPlanning

/-- Which actions the semantics lets be taken together. -/
def StepSemantics.Allows (semantics : StepSemantics) (problem : Problem) (taken : Nat → Prop) :
    Prop :=
  match semantics with
  | .sequential => ∀ i j, taken i → taken j → i = j
  | .parallel => ∀ i j a b, i ≠ j → taken i → taken j → problem.action? i = some a →
      problem.action? j = some b → a.interferesWith b = false

theorem Problem.lt_actionCount {problem : Problem} {id : Nat} {action : Action}
    (h : problem.action? id = some action) : id < problem.actionCount :=
  (List.getElem?_eq_some_iff.mp h).1

theorem Problem.exists_action? {problem : Problem} {id : Nat} (h : id < problem.actionCount) :
    ∃ action, problem.action? id = some action :=
  ⟨_, List.getElem?_eq_getElem h⟩

theorem Problem.lt_factCount {problem : Problem} {action : Action}
    (haction : action ∈ problem.actions) {fact : Nat}
    (hfact : fact ∈ action.pre ++ action.preNeg ++ action.add ++ action.effectiveDel) :
    fact < problem.factCount := by
  refine problem.actions_inRange action haction fact ?_
  simp only [List.mem_append, Action.mem_effectiveDel, Action.deletes_iff] at hfact
  rw [Action.mem_facts_iff]
  tauto

theorem Problem.lt_factCount_of_mem_preconditions {problem : Problem} {action : Action}
    (haction : action ∈ problem.actions) {fact : Nat} (hfact : fact ∈ action.pre ++ action.preNeg) :
    fact < problem.factCount := by
  apply Problem.lt_factCount haction
  exact List.mem_append_left _ (List.mem_append_left _ hfact)

theorem Problem.lt_factCount_of_mem_effects {problem : Problem} {action : Action}
    (haction : action ∈ problem.actions) {fact : Nat}
    (hfact : fact ∈ action.add ++ action.effectiveDel) : fact < problem.factCount := by
  apply Problem.lt_factCount haction
  rw [List.append_assoc]
  exact List.mem_append_right _ hfact

theorem Problem.mem_adders {problem : Problem} {fact id : Nat} :
    id ∈ problem.adders fact ↔ ∃ action, problem.action? id = some action ∧ fact ∈ action.add := by
  simp [Problem.adders, Problem.mem_numberedActions, Action.adds]

theorem Problem.mem_deleters {problem : Problem} {fact id : Nat} :
    id ∈ problem.deleters fact ↔
      ∃ action, problem.action? id = some action ∧ action.deletes fact = true := by
  simp [Problem.deleters, Problem.mem_numberedActions]

theorem Problem.lt_actionCount_of_mem_adders {problem : Problem} {fact id : Nat}
    (h : id ∈ problem.adders fact) : id < problem.actionCount := by
  obtain ⟨action, hget, -⟩ := Problem.mem_adders.mp h
  exact Problem.lt_actionCount hget

theorem Problem.lt_actionCount_of_mem_deleters {problem : Problem} {fact id : Nat}
    (h : id ∈ problem.deleters fact) : id < problem.actionCount := by
  obtain ⟨action, hget, -⟩ := Problem.mem_deleters.mp h
  exact Problem.lt_actionCount hget

namespace TransitionVars

/-- The transition respects preconditions and effects, and it changes a fact only by an action. -/
structure Obeys (vars : TransitionVars) (problem : Problem) (value : Valuation) : Prop where
  pre : ∀ id action, problem.action? id = some action → ∀ fact ∈ action.pre,
    value (vars.action id) = some false ∨ value (vars.factBefore fact) = some true
  preNeg : ∀ id action, problem.action? id = some action → ∀ fact ∈ action.preNeg,
    value (vars.action id) = some false ∨ value (vars.factBefore fact) = some false
  add : ∀ id action, problem.action? id = some action → ∀ fact ∈ action.add,
    value (vars.action id) = some false ∨ value (vars.factAfter fact) = some true
  del : ∀ id action, problem.action? id = some action → ∀ fact ∈ action.effectiveDel,
    value (vars.action id) = some false ∨ value (vars.factAfter fact) = some false
  staysTrue : ∀ fact < problem.factCount,
    value (vars.factBefore fact) = some false ∨ value (vars.factAfter fact) = some true ∨
      ∃ id ∈ problem.deleters fact, value (vars.action id) = some true
  staysFalse : ∀ fact < problem.factCount,
    value (vars.factBefore fact) = some true ∨ value (vars.factAfter fact) = some false ∨
      ∃ id ∈ problem.adders fact, value (vars.action id) = some true

variable {vars : TransitionVars} {problem : Problem} {semantics : StepSemantics}
  {value : Valuation} {index next : VariableIndex} {time : Nat}

theorem ReadFrom.of_grows (h : vars.ReadFrom index problem semantics time)
    (hindex : index.Consistent) (hnext : next.Consistent)
    (hgrows : index.entries <+: next.entries) : vars.ReadFrom next problem semantics time where
  action id hid := VariableIndex.get?_of_grows hindex hnext hgrows (h.action id hid)
  before fact hfact := VariableIndex.get?_of_grows hindex hnext hgrows (h.before fact hfact)
  after fact hfact := VariableIndex.get?_of_grows hindex hnext hgrows (h.after fact hfact)
  aux n hn := VariableIndex.get?_of_grows hindex hnext hgrows (h.aux n hn)
  actions_size := h.actions_size

theorem ReadFrom.action_pos (h : vars.ReadFrom index problem semantics time)
    (hindex : index.Consistent) {id : Nat} (hid : id < problem.actionCount) :
    0 < vars.action id :=
  (VariableIndex.get?_bounds hindex (h.action id hid)).1

theorem ReadFrom.before_pos (h : vars.ReadFrom index problem semantics time)
    (hindex : index.Consistent) {fact : Nat} (hfact : fact < problem.factCount) :
    0 < vars.factBefore fact :=
  (VariableIndex.get?_bounds hindex (h.before fact hfact)).1

theorem ReadFrom.after_pos (h : vars.ReadFrom index problem semantics time)
    (hindex : index.Consistent) {fact : Nat} (hfact : fact < problem.factCount) :
    0 < vars.factAfter fact :=
  (VariableIndex.get?_bounds hindex (h.after fact hfact)).1

/-- The precondition clauses and the effect clauses have one form: an action makes the facts of
one list true and those of another false. -/
theorem satisfies_implications_iff {first second : Action → List Nat} {factVar : Nat → Nat}
    (haction : ∀ id < problem.actionCount, 0 < vars.action id)
    (hfact : ∀ action ∈ problem.actions, ∀ fact ∈ first action ++ second action,
      0 < factVar fact) :
    (∀ lits ∈ problem.numberedActions.flatMap (fun (action, id) =>
        (first action).map (fun fact =>
          [literal (vars.action id) false, literal (factVar fact) true]) ++
        (second action).map fun fact =>
          [literal (vars.action id) false, literal (factVar fact) false]),
      value.Satisfies lits) ↔
    (∀ id action, problem.action? id = some action → ∀ fact ∈ first action,
      value (vars.action id) = some false ∨ value (factVar fact) = some true) ∧
    ∀ id action, problem.action? id = some action → ∀ fact ∈ second action,
      value (vars.action id) = some false ∨ value (factVar fact) = some false := by
  have hpair : ∀ id action, problem.action? id = some action →
      ∀ fact ∈ first action ++ second action, ∀ truth,
        value.Satisfies [literal (vars.action id) false, literal (factVar fact) truth] ↔
          value (vars.action id) = some false ∨ value (factVar fact) = some truth := by
    intro id action hget fact hmem truth
    rw [Valuation.satisfies_cons_literal (haction id (Problem.lt_actionCount hget)),
      Valuation.satisfies_cons_literal (hfact action (List.mem_of_getElem? hget) fact hmem)]
    simp
  constructor
  · intro h
    constructor
    · intro id action hget fact hmem
      refine (hpair id action hget fact (by simp [hmem]) true).mp (h _ ?_)
      refine List.mem_flatMap.mpr ⟨(action, id), Problem.mem_numberedActions.mpr hget, ?_⟩
      exact List.mem_append_left _ (List.mem_map.mpr ⟨fact, hmem, rfl⟩)
    · intro id action hget fact hmem
      refine (hpair id action hget fact (by simp [hmem]) false).mp (h _ ?_)
      refine List.mem_flatMap.mpr ⟨(action, id), Problem.mem_numberedActions.mpr hget, ?_⟩
      exact List.mem_append_right _ (List.mem_map.mpr ⟨fact, hmem, rfl⟩)
  · rintro ⟨hfirst, hsecond⟩ lits hlits
    obtain ⟨⟨action, id⟩, hnumbered, hlits⟩ := List.mem_flatMap.mp hlits
    have hget := Problem.mem_numberedActions.mp hnumbered
    rcases List.mem_append.mp hlits with hlits | hlits
    · obtain ⟨fact, hmem, rfl⟩ := List.mem_map.mp hlits
      exact (hpair id action hget fact (by simp [hmem]) true).mpr (hfirst id action hget fact hmem)
    · obtain ⟨fact, hmem, rfl⟩ := List.mem_map.mp hlits
      exact (hpair id action hget fact (by simp [hmem]) false).mpr
        (hsecond id action hget fact hmem)

theorem satisfies_frame_iff (hindex : index.Consistent)
    (hread : vars.ReadFrom index problem semantics time) :
    (∀ lits ∈ vars.frame problem.factChanges, value.Satisfies lits) ↔
      ∀ fact < problem.factCount,
        (value (vars.factBefore fact) = some false ∨ value (vars.factAfter fact) = some true ∨
          ∃ id ∈ problem.deleters fact, value (vars.action id) = some true) ∧
        (value (vars.factBefore fact) = some true ∨ value (vars.factAfter fact) = some false ∨
          ∃ id ∈ problem.adders fact, value (vars.action id) = some true) := by
  have hdeleters : ∀ fact, ∀ id ∈ problem.deleters fact, 0 < vars.action id := fun _ _ hid =>
    hread.action_pos hindex (Problem.lt_actionCount_of_mem_deleters hid)
  have hadders : ∀ fact, ∀ id ∈ problem.adders fact, 0 < vars.action id := fun _ _ hid =>
    hread.action_pos hindex (Problem.lt_actionCount_of_mem_adders hid)
  simp only [frame, Problem.factChanges, Problem.factIds, List.flatMap_map, List.mem_flatMap,
    List.mem_range, forall_exists_index, and_imp]
  rw [forall_comm]
  refine forall_congr' fun fact => ?_
  rw [forall_comm]
  refine forall_congr' fun hfact => ?_
  rw [List.forall_mem_cons, List.forall_mem_singleton,
    Valuation.satisfies_cons_literal (hread.before_pos hindex hfact),
    Valuation.satisfies_cons_literal (hread.after_pos hindex hfact),
    Valuation.satisfies_map_literal (hdeleters fact),
    Valuation.satisfies_cons_literal (hread.before_pos hindex hfact),
    Valuation.satisfies_cons_literal (hread.after_pos hindex hfact),
    Valuation.satisfies_map_literal (hadders fact)]

theorem obeys_iff (hindex : index.Consistent)
    (hread : vars.ReadFrom index problem semantics time) :
    (∀ lits ∈ vars.preconditions problem ++ vars.effects problem ++
      vars.frame problem.factChanges, value.Satisfies lits) ↔ vars.Obeys problem value := by
  have hpre : ∀ action ∈ problem.actions, ∀ fact ∈ action.pre ++ action.preNeg,
      0 < vars.factBefore fact := fun action haction fact hmem =>
    hread.before_pos hindex (Problem.lt_factCount_of_mem_preconditions haction hmem)
  have heff : ∀ action ∈ problem.actions, ∀ fact ∈ action.add ++ action.effectiveDel,
      0 < vars.factAfter fact := fun action haction fact hmem =>
    hread.after_pos hindex (Problem.lt_factCount_of_mem_effects haction hmem)
  rw [List.forall_mem_append, List.forall_mem_append, satisfies_frame_iff hindex hread,
    preconditions, satisfies_implications_iff (fun id => hread.action_pos hindex) hpre,
    effects, satisfies_implications_iff (fun id => hread.action_pos hindex) heff]
  constructor
  · rintro ⟨⟨⟨hpre, hpreNeg⟩, hadd, hdel⟩, hframe⟩
    exact ⟨hpre, hpreNeg, hadd, hdel, fun fact hfact => (hframe fact hfact).1,
      fun fact hfact => (hframe fact hfact).2⟩
  · rintro ⟨hpre, hpreNeg, hadd, hdel, htrue, hfalse⟩
    exact ⟨⟨⟨hpre, hpreNeg⟩, hadd, hdel⟩, fun fact hfact => ⟨htrue fact hfact, hfalse fact hfact⟩⟩

theorem ReadFrom.getElem?_actions (hread : vars.ReadFrom index problem semantics time) {id var : Nat} :
    vars.actions.toList[id]? = some var ↔ id < problem.actionCount ∧ vars.action id = var := by
  rw [Array.getElem?_toList, ← hread.actions_size]
  by_cases hid : id < vars.actions.size
  · simp [TransitionVars.action, hid]
  · simp [hid]

theorem ReadFrom.firstAux_pos (hindex : index.Consistent)
    (hread : vars.ReadFrom index problem .sequential time) (h : 1 < problem.actionCount) :
    0 < vars.aux[0]?.getD 0 :=
  (VariableIndex.get?_bounds hindex
    (hread.aux 0 (show 0 < problem.actionCount - 1 by omega))).1

theorem allows_of_satisfies_exclusion (hindex : index.Consistent)
    (hread : vars.ReadFrom index problem semantics time)
    (h : ∀ lits ∈ vars.exclusion semantics (TransitionScheme.of problem semantics).interference,
      value.Satisfies lits) :
    semantics.Allows problem fun id =>
      id < problem.actionCount ∧ value (vars.action id) = some true := by
  cases semantics with
  | sequential =>
      rintro i j ⟨hi, hiTrue⟩ ⟨hj, hjTrue⟩
      by_cases hcount : 1 < problem.actionCount
      · refine atMostOne_of_ladder ?_ (hread.firstAux_pos hindex hcount) h
          (hread.getElem?_actions.mpr ⟨hi, rfl⟩) (hread.getElem?_actions.mpr ⟨hj, rfl⟩) hiTrue hjTrue
        intro var hvar
        obtain ⟨id, hid⟩ := List.mem_iff_getElem?.mp hvar
        obtain ⟨hlt, rfl⟩ := hread.getElem?_actions.mp hid
        exact hread.action_pos hindex hlt
      · omega
  | parallel =>
      intro i j a b hne hi hj ha hb
      wlog hij : i < j generalizing i j a b
      · rw [Action.interferesWith_comm]
        exact this j i b a hne.symm hj hi hb ha (by omega)
      by_contra hinterferes
      rw [Bool.not_eq_false] at hinterferes
      have hclause := h _ (List.mem_map.mpr ⟨(i, j),
        Problem.mem_interferingPairs.mpr ⟨hij, a, b, ha, hb, hinterferes⟩, rfl⟩)
      have hfalse := Valuation.of_satisfies_pair (hread.action_pos hindex hi.1)
        (hread.action_pos hindex hj.1) hclause hi.2
      rw [hj.2] at hfalse
      cases hfalse

/-- Actions that the semantics allows satisfy the exclusion, once each auxiliary says whether an
action above it is taken. -/
theorem satisfies_exclusion_of_allows (hindex : index.Consistent)
    (hread : vars.ReadFrom index problem semantics time) {truth : Nat → Bool}
    (hallows : semantics.Allows problem fun id =>
      id < problem.actionCount ∧ truth (vars.action id) = true)
    (haux : ∀ n < problem.auxCount semantics, truth (vars.aux[0]?.getD 0 + n) = true ↔
      ∃ id, n < id ∧ id < problem.actionCount ∧ truth (vars.action id) = true) :
    ∀ lits ∈ vars.exclusion semantics (TransitionScheme.of problem semantics).interference,
      (Valuation.total truth).Satisfies lits := by
  cases semantics with
  | sequential =>
      have hlength : vars.actions.toList.length = problem.actionCount := by
        rw [Array.length_toList, hread.actions_size]
      by_cases hcount : 1 < problem.actionCount
      · refine satisfies_ladder ?_ (hread.firstAux_pos hindex hcount) ?_ ?_
        · intro var hvar
          obtain ⟨id, hid⟩ := List.mem_iff_getElem?.mp hvar
          obtain ⟨hlt, rfl⟩ := hread.getElem?_actions.mp hid
          exact hread.action_pos hindex hlt
        · intro i j var other hi hj hvar hother
          obtain ⟨hilt, rfl⟩ := hread.getElem?_actions.mp hi
          obtain ⟨hjlt, rfl⟩ := hread.getElem?_actions.mp hj
          exact hallows i j ⟨hilt, hvar⟩ ⟨hjlt, hother⟩
        · intro i hi
          rw [hlength] at hi
          rw [haux i (show i < problem.actionCount - 1 by omega)]
          simp only [hread.getElem?_actions]
          constructor
          · rintro ⟨id, hlt, hid, htrue⟩
            exact ⟨id, _, hlt, ⟨hid, rfl⟩, htrue⟩
          · rintro ⟨id, _, hlt, ⟨hid, rfl⟩, htrue⟩
            exact ⟨id, hlt, hid, htrue⟩
      · intro lits hlits
        rw [exclusion, ladder, if_pos (by omega)] at hlits
        cases hlits
  | parallel =>
      intro lits hlits
      obtain ⟨⟨i, j⟩, hpair, rfl⟩ := List.mem_map.mp hlits
      obtain ⟨hij, a, b, ha, hb, hinterferes⟩ := Problem.mem_interferingPairs.mp hpair
      have hi := Problem.lt_actionCount ha
      have hj := Problem.lt_actionCount hb
      refine Valuation.satisfies_pair_of (hread.action_pos hindex hi) (hread.action_pos hindex hj)
        fun htrue => ?_
      rw [← Bool.not_eq_true]
      intro hother
      have := hallows i j a b (by omega) ⟨hi, htrue⟩ ⟨hj, hother⟩ ha hb
      rw [hinterferes] at this
      cases this

end TransitionVars

end BoundedPlanning
