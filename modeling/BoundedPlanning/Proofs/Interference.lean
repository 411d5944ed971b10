import BoundedPlanning.Encoding.Interference
import BoundedPlanning.Proofs.Ascending

namespace BoundedPlanning

namespace Action

theorem mem_facts_iff {action : Action} {fact : Nat} :
    fact ∈ action.facts ↔
      fact ∈ action.pre ∨ fact ∈ action.preNeg ∨ fact ∈ action.add ∨ fact ∈ action.del := by
  simp only [facts, List.mem_append, or_assoc]

theorem deletes_iff {action : Action} {fact : Nat} :
    action.deletes fact = true ↔ fact ∈ action.del ∧ fact ∉ action.add := by
  simp [deletes]

theorem clobbers_iff {a b : Action} :
    a.clobbers b = true ↔
      (∃ fact, a.deletes fact = true ∧
        (fact ∈ b.pre ∨ fact ∈ b.add ∨ b.deletes fact = true)) ∨
      ∃ fact, fact ∈ a.add ∧ (fact ∈ b.preNeg ∨ fact ∈ b.add ∨ b.deletes fact = true) := by
  simp only [clobbers, Bool.or_eq_true, List.any_eq_true, mem_effectiveDel, List.contains_iff_mem,
    or_assoc]

theorem interferesWith_comm (a b : Action) : a.interferesWith b = b.interferesWith a := by
  simp only [interferesWith, Bool.or_comm]

/-- An effect that spoils something is an effect on a fact that both actions mention. -/
theorem exists_common_of_clobbers {a b : Action} (h : a.clobbers b = true) :
    ∃ fact, fact ∈ a.facts ∧ fact ∈ b.facts := by
  rcases clobbers_iff.mp h with ⟨fact, hdel, hb⟩ | ⟨fact, hadd, hb⟩
  · refine ⟨fact, mem_facts_iff.mpr (by simp [(deletes_iff.mp hdel).1]), mem_facts_iff.mpr ?_⟩
    rcases hb with hb | hb | hb
    · exact Or.inl hb
    · exact Or.inr (Or.inr (Or.inl hb))
    · exact Or.inr (Or.inr (Or.inr (deletes_iff.mp hb).1))
  · refine ⟨fact, mem_facts_iff.mpr (by simp [hadd]), mem_facts_iff.mpr ?_⟩
    rcases hb with hb | hb | hb
    · exact Or.inr (Or.inl hb)
    · exact Or.inr (Or.inr (Or.inl hb))
    · exact Or.inr (Or.inr (Or.inr (deletes_iff.mp hb).1))

theorem exists_common_of_interferesWith {a b : Action} (h : a.interferesWith b = true) :
    ∃ fact, fact ∈ a.facts ∧ fact ∈ b.facts := by
  rcases Bool.or_eq_true_iff.mp h with h | h
  · exact exists_common_of_clobbers h
  · obtain ⟨fact, hb, ha⟩ := exists_common_of_clobbers h
    exact ⟨fact, ha, hb⟩

end Action

namespace Problem

theorem pairwise_numberedActions (problem : Problem) :
    problem.numberedActions.Pairwise fun a b => a.2 < b.2 := by
  have hids : (problem.numberedActions.map Prod.snd).Pairwise (· < ·) := by
    rw [numberedActions, List.zipIdx_map_snd]
    exact List.pairwise_lt_range'
  exact List.pairwise_map.mp hids

/-- Every pair of interfering actions, the lower number first, in lexicographic order. -/
def interferingPairsByComparison (problem : Problem) : List (Nat × Nat) :=
  problem.numberedActions.flatMap fun (a, i) =>
    (problem.numberedActions.filter fun (b, j) => decide (i < j) && a.interferesWith b).map
      fun (_, j) => (i, j)

theorem mem_interferingPairsByComparison {problem : Problem} {i j : Nat} :
    (i, j) ∈ problem.interferingPairsByComparison ↔
      i < j ∧ ∃ a b, problem.action? i = some a ∧ problem.action? j = some b ∧
        a.interferesWith b = true := by
  simp only [interferingPairsByComparison, List.mem_flatMap, List.mem_map, List.mem_filter,
    Prod.exists, mem_numberedActions, Bool.and_eq_true, decide_eq_true_eq, Prod.mk.injEq]
  constructor
  · rintro ⟨a, _, ha, b, _, ⟨hb, hlt, hinterferes⟩, rfl, rfl⟩
    exact ⟨hlt, a, b, ha, hb, hinterferes⟩
  · rintro ⟨hlt, a, b, ha, hb, hinterferes⟩
    exact ⟨a, i, ha, b, j, ⟨hb, hlt, hinterferes⟩, rfl, rfl⟩

/-! ### The actions that mention a fact -/

theorem mem_foldl_noteTouching {id other fact : Nat} {facts : List Nat}
    {touching : Array (Array Nat)} :
    other ∈ (facts.foldl (noteTouching id) touching)[fact]?.getD #[] ↔
      other ∈ touching[fact]?.getD #[] ∨
        (other = id ∧ fact ∈ facts ∧ fact < touching.size) := by
  induction facts generalizing touching with
  | nil => simp
  | cons first rest ih =>
      have hnote : ∀ k, other ∈ (noteTouching id touching first)[k]?.getD #[] ↔
          other ∈ touching[k]?.getD #[] ∨ (other = id ∧ k = first ∧ k < touching.size) := by
        intro k
        rw [noteTouching, Array.getElem?_modify]
        by_cases hk : first = k
        · subst k
          cases hget : touching[first]? with
          | none =>
              have := Array.getElem?_eq_none_iff.mp hget
              simp
              omega
          | some ids =>
              have hlt := (Array.getElem?_eq_some_iff.mp hget).1
              simp only [if_true, Option.map_some, Option.getD_some, hlt, and_true]
              split
              · rename_i hback
                have hmem : id ∈ ids := Array.mem_of_back? hback
                constructor
                · exact Or.inl
                · rintro (h | rfl)
                  · exact h
                  · exact hmem
              · exact Array.mem_push
        · have hk' : k ≠ first := fun h => hk h.symm
          simp [hk, hk']
      have hsize : (noteTouching id touching first).size = touching.size := by
        simp [noteTouching]
      rw [List.foldl_cons, ih, hnote, hsize, List.mem_cons]
      constructor
      · rintro ((h | ⟨h, hk, hlt⟩) | ⟨h, hmem, hlt⟩)
        · exact Or.inl h
        · exact Or.inr ⟨h, Or.inl hk, hlt⟩
        · exact Or.inr ⟨h, Or.inr hmem, hlt⟩
      · rintro (h | ⟨h, hk | hmem, hlt⟩)
        · exact Or.inl (Or.inl h)
        · exact Or.inl (Or.inr ⟨h, hk, hlt⟩)
        · exact Or.inr ⟨h, hmem, hlt⟩

theorem size_foldl_noteTouching {id : Nat} {facts : List Nat} {touching : Array (Array Nat)} :
    (facts.foldl (noteTouching id) touching).size = touching.size := by
  induction facts generalizing touching with
  | nil => rfl
  | cons first rest ih => rw [List.foldl_cons, ih]; simp [noteTouching]

theorem mem_foldl_touching {numbered : List (Action × Nat)} {touching : Array (Array Nat)}
    {id fact : Nat} :
    id ∈ (numbered.foldl
      (fun touching (action, id) => action.facts.foldl (noteTouching id) touching)
      touching)[fact]?.getD #[] ↔
      id ∈ touching[fact]?.getD #[] ∨
        ∃ action, (action, id) ∈ numbered ∧ fact ∈ action.facts ∧ fact < touching.size := by
  induction numbered generalizing touching with
  | nil => simp
  | cons first rest ih =>
      rw [List.foldl_cons, ih, mem_foldl_noteTouching, size_foldl_noteTouching]
      constructor
      · rintro ((h | ⟨rfl, hmem, hlt⟩) | ⟨action, haction, hmem, hlt⟩)
        · exact Or.inl h
        · exact Or.inr ⟨first.1, by simp, hmem, hlt⟩
        · exact Or.inr ⟨action, by simp [haction], hmem, hlt⟩
      · rintro (h | ⟨action, haction, hmem, hlt⟩)
        · exact Or.inl (Or.inl h)
        · rcases List.mem_cons.mp haction with rfl | haction
          · exact Or.inl (Or.inr ⟨rfl, hmem, hlt⟩)
          · exact Or.inr ⟨action, haction, hmem, hlt⟩

theorem mem_touchingActions {problem : Problem} {id fact : Nat} :
    id ∈ problem.touchingActions[fact]?.getD #[] ↔
      ∃ action, problem.action? id = some action ∧ fact ∈ action.facts := by
  rw [touchingActions, mem_foldl_touching]
  simp only [mem_numberedActions, Array.size_replicate]
  constructor
  · rintro (h | ⟨action, haction, hmem, -⟩)
    · rw [Array.getElem?_replicate] at h
      split at h <;> simp at h
    · exact ⟨action, haction, hmem⟩
  · rintro ⟨action, haction, hmem⟩
    exact Or.inr ⟨action, haction, hmem,
      problem.actions_inRange action (List.mem_of_getElem? haction) fact hmem⟩

/-! ### The partners of one action -/

/-- What the search for the partners of action `i` knows once the candidates in `done` were looked
at: it has stamped those with higher numbers and keeps those that interfere. -/
structure PartnerSearch.Covers (actions : Array Action) (i : Nat) (action : Action)
    (done : List Nat) (search : PartnerSearch) : Prop where
  size_eq : search.seen.size = actions.size
  stamp_le : ∀ j stamp : Nat, search.seen[j]? = some (some stamp) → stamp ≤ i
  stamped_iff : ∀ j, search.seen[j]? = some (some i) ↔ j ∈ done ∧ i < j ∧ j < actions.size
  nodup : search.partners.toList.Nodup
  mem_iff : ∀ j, j ∈ search.partners ↔
    j ∈ done ∧ i < j ∧ ∃ other, actions[j]? = some other ∧ action.interferesWith other = true

section ConsiderPartner

variable {actions : Array Action} {i j : Nat} {action : Action} {done : List Nat}
  {search : PartnerSearch}

theorem mem_partners_considerPartner (hnew : i < j ∧ search.seen[j]? ≠ some (some i)) {k : Nat} :
    k ∈ (considerPartner actions i action search j).partners ↔
      k ∈ search.partners ∨ (k = j ∧ ∃ other, actions[j]? = some other ∧
        action.interferesWith other = true) := by
  rw [considerPartner, if_pos hnew]
  cases actions[j]? with
  | none => simp
  | some other =>
      by_cases hinterferes : action.interferesWith other = true <;> simp [hinterferes]

theorem nodup_partners_considerPartner (hnew : i < j ∧ search.seen[j]? ≠ some (some i))
    (hfresh : j ∉ search.partners) (hnodup : search.partners.toList.Nodup) :
    (considerPartner actions i action search j).partners.toList.Nodup := by
  rw [considerPartner, if_pos hnew]
  dsimp only
  split
  · split
    · rw [Array.toList_push]
      exact hnodup.append (List.nodup_singleton j) (by simpa using hfresh)
    · exact hnodup
  · exact hnodup

theorem PartnerSearch.Covers.not_mem_partners (h : search.Covers actions i action done)
    (hnew : i < j ∧ search.seen[j]? ≠ some (some i)) : j ∉ search.partners := by
  intro hmem
  obtain ⟨hdone, hij, other, hother, -⟩ := (h.mem_iff j).mp hmem
  exact hnew.2 ((h.stamped_iff j).mpr ⟨hdone, hij, (Array.getElem?_eq_some_iff.mp hother).1⟩)

theorem PartnerSearch.Covers.considered (h : search.Covers actions i action done)
    (hnew : i < j ∧ search.seen[j]? ≠ some (some i)) :
    (considerPartner actions i action search j).Covers actions i action (j :: done) := by
  have hseen : (considerPartner actions i action search j).seen =
      search.seen.setIfInBounds j (some i) := by
    rw [considerPartner, if_pos hnew]
  refine ⟨by simp [hseen, h.size_eq], ?_, ?_,
    nodup_partners_considerPartner hnew (h.not_mem_partners hnew) h.nodup, ?_⟩
  · intro k stamp hstamp
    rw [hseen, Array.getElem?_setIfInBounds] at hstamp
    split at hstamp
    · split at hstamp
      · cases hstamp
        exact Nat.le_refl i
      · cases hstamp
    · exact h.stamp_le k stamp hstamp
  · intro k
    rw [hseen, Array.getElem?_setIfInBounds, h.size_eq, List.mem_cons]
    by_cases hjk : j = k
    · subst k
      by_cases hj : j < actions.size <;> simp [hj, hnew.1]
    · have hkj : k ≠ j := fun hk => hjk hk.symm
      rw [if_neg hjk, h.stamped_iff k]
      simp [hkj]
  · intro k
    rw [mem_partners_considerPartner hnew, h.mem_iff k, List.mem_cons]
    constructor
    · rintro (⟨hdone, hik, hother⟩ | ⟨rfl, hother⟩)
      · exact ⟨Or.inr hdone, hik, hother⟩
      · exact ⟨Or.inl rfl, hnew.1, hother⟩
    · rintro ⟨rfl | hdone, hik, hother⟩
      · exact Or.inr ⟨rfl, hother⟩
      · exact Or.inl ⟨hdone, hik, hother⟩

theorem PartnerSearch.Covers.skipped (h : search.Covers actions i action done)
    (hskip : ¬ (i < j ∧ search.seen[j]? ≠ some (some i))) :
    search.Covers actions i action (j :: done) := by
  -- a skipped candidate has a lower number, or it is stamped and hence among `done`
  have hdone : i < j → j ∈ done := by
    intro hij
    by_contra hmem
    exact hskip ⟨hij, fun hseen => hmem ((h.stamped_iff j).mp hseen).1⟩
  refine ⟨h.size_eq, h.stamp_le, ?_, h.nodup, ?_⟩
  · intro k
    rw [h.stamped_iff k, List.mem_cons]
    constructor
    · rintro ⟨hmem, hik, hk⟩
      exact ⟨Or.inr hmem, hik, hk⟩
    · rintro ⟨rfl | hmem, hik, hk⟩
      · exact ⟨hdone hik, hik, hk⟩
      · exact ⟨hmem, hik, hk⟩
  · intro k
    rw [h.mem_iff k, List.mem_cons]
    constructor
    · rintro ⟨hmem, hik, hother⟩
      exact ⟨Or.inr hmem, hik, hother⟩
    · rintro ⟨rfl | hmem, hik, hother⟩
      · exact ⟨hdone hik, hik, hother⟩
      · exact ⟨hmem, hik, hother⟩

theorem PartnerSearch.Covers.considerPartner (h : search.Covers actions i action done) (j : Nat) :
    (Problem.considerPartner actions i action search j).Covers actions i action (j :: done) := by
  by_cases hnew : i < j ∧ search.seen[j]? ≠ some (some i)
  · exact h.considered hnew
  · rw [Problem.considerPartner, if_neg hnew]
    exact h.skipped hnew

end ConsiderPartner

theorem covers_foldl_considerPartner {actions : Array Action} {i : Nat} {action : Action}
    (candidates : List Nat) {done : List Nat} {search : PartnerSearch}
    (h : search.Covers actions i action done) :
    (candidates.foldl (considerPartner actions i action) search).Covers actions i action
      (candidates.reverse ++ done) := by
  induction candidates generalizing done search with
  | nil => exact h
  | cons j rest ih =>
      rw [List.foldl_cons, List.reverse_cons, List.append_assoc]
      exact ih (h.considerPartner j)

/-- Stamps that are all lower than `i` do not disturb the search for the partners of `i`. -/
theorem covers_start {actions : Array Action} {seen : Array (Option Nat)} {i : Nat}
    (action : Action) (hsize : seen.size = actions.size)
    (hstamps : ∀ j stamp : Nat, seen[j]? = some (some stamp) → stamp < i) :
    PartnerSearch.Covers actions i action [] ⟨seen, #[]⟩ := by
  refine ⟨hsize, fun j stamp h => Nat.le_of_lt (hstamps j stamp h), ?_, by simp, by simp⟩
  intro j
  constructor
  · intro h
    exact absurd (hstamps j i h) (Nat.lt_irrefl i)
  · rintro ⟨hmem, -⟩
    cases hmem

theorem partnersOf_eq {problem : Problem} {seen : Array (Option Nat)} {i : Nat} (action : Action)
    (hsize : seen.size = problem.actionCount)
    (hstamps : ∀ j stamp : Nat, seen[j]? = some (some stamp) → stamp < i) :
    ∃ next, partnersOf problem.actions.toArray problem.touchingActions seen i action =
        ((problem.numberedActions.filter fun (b, j) =>
          decide (i < j) && action.interferesWith b).map Prod.snd, next) ∧
      next.size = problem.actionCount ∧
      ∀ j stamp : Nat, next[j]? = some (some stamp) → stamp ≤ i := by
  let candidates := action.facts.flatMap fun fact =>
    (problem.touchingActions[fact]?.getD #[]).toList
  let search := candidates.foldl (considerPartner problem.actions.toArray i action) ⟨seen, #[]⟩
  have hsearch : search.Covers problem.actions.toArray i action (candidates.reverse ++ []) :=
    covers_foldl_considerPartner candidates (covers_start action (by simp [hsize, actionCount]) hstamps)
  have hpartners : partnersOf problem.actions.toArray problem.touchingActions seen i action =
      (search.partners.toList.mergeSort, search.seen) := by
    simp only [partnersOf, search, candidates, List.foldl_flatMap, Array.foldl_toList]
  refine ⟨search.seen, ?_, by simpa [actionCount] using hsearch.size_eq, hsearch.stamp_le⟩
  rw [hpartners]
  refine congrArg (·, search.seen) ?_
  have hsorted : (search.partners.toList.mergeSort).Pairwise (· < ·) :=
    pairwise_lt_mergeSort hsearch.nodup
  have hfiltered : ((problem.numberedActions.filter fun (b, j) =>
      decide (i < j) && action.interferesWith b).map Prod.snd).Pairwise (· < ·) :=
    List.pairwise_map.mpr (problem.pairwise_numberedActions.filter _)
  refine hsorted.eq_of_mem_iff hfiltered fun j => ?_
  simp only [List.mem_mergeSort, Array.mem_toList_iff, hsearch.mem_iff, List.append_nil,
    List.mem_reverse, List.mem_map, List.mem_filter, Prod.exists, mem_numberedActions,
    Bool.and_eq_true, decide_eq_true_eq, exists_eq_right, List.getElem?_toArray, candidates,
    List.mem_flatMap, mem_touchingActions, action?]
  constructor
  · rintro ⟨-, hij, other, hother, hinterferes⟩
    exact ⟨other, hother, hij, hinterferes⟩
  · rintro ⟨other, hother, hij, hinterferes⟩
    obtain ⟨fact, hfact, hfactOther⟩ := Action.exists_common_of_interferesWith hinterferes
    exact ⟨⟨fact, hfact, other, hother, hfactOther⟩, hij, other, hother, hinterferes⟩

theorem foldl_partnersOf_eq {problem : Problem} {numbered : List (Action × Nat)}
    {pairs : Array (Nat × Nat)} {seen : Array (Option Nat)}
    (hordered : numbered.Pairwise fun a b => a.2 < b.2) (hsize : seen.size = problem.actionCount)
    (hstamps : ∀ a ∈ numbered, ∀ j stamp : Nat, seen[j]? = some (some stamp) → stamp < a.2) :
    (numbered.foldl (fun (pairs, seen) (action, i) =>
      let (partners, seen) :=
        partnersOf problem.actions.toArray problem.touchingActions seen i action
      (pairs ++ (partners.map fun j => (i, j)).toArray, seen)) (pairs, seen)).1.toList =
    pairs.toList ++ numbered.flatMap fun (a, i) =>
      (problem.numberedActions.filter fun (b, j) =>
        decide (i < j) && a.interferesWith b).map fun (_, j) => (i, j) := by
  induction numbered generalizing pairs seen with
  | nil => simp
  | cons first rest ih =>
      obtain ⟨next, hpartners, hnext, hle⟩ :=
        partnersOf_eq first.1 hsize (hstamps first (by simp))
      rw [List.foldl_cons]
      simp only [hpartners]
      rw [ih hordered.tail hnext]
      · simp [List.map_map, Function.comp_def]
      · intro a ha j stamp hstamp
        exact Nat.lt_of_le_of_lt (hle j stamp hstamp) (List.rel_of_pairwise_cons hordered ha)

theorem interferingPairs_eq_byComparison (problem : Problem) :
    problem.interferingPairs = problem.interferingPairsByComparison := by
  have h := @foldl_partnersOf_eq problem problem.numberedActions #[]
    (Array.replicate problem.actionCount none) problem.pairwise_numberedActions
    Array.size_replicate ?_
  · simpa [interferingPairs, interferingPairsByComparison, actionCount] using h
  · intro a _ j stamp hstamp
    rw [Array.getElem?_replicate] at hstamp
    split at hstamp <;> cases hstamp

theorem mem_interferingPairs {problem : Problem} {i j : Nat} :
    (i, j) ∈ problem.interferingPairs ↔
      i < j ∧ ∃ a b, problem.action? i = some a ∧ problem.action? j = some b ∧
        a.interferesWith b = true := by
  rw [interferingPairs_eq_byComparison, mem_interferingPairsByComparison]

theorem pairwise_interferingPairs (problem : Problem) :
    problem.interferingPairs.Pairwise (Prod.Lex (· < ·) (· < ·)) := by
  rw [interferingPairs_eq_byComparison, interferingPairsByComparison, List.pairwise_flatMap]
  constructor
  · rintro ⟨a, i⟩ -
    rw [List.pairwise_map]
    apply (problem.pairwise_numberedActions.filter _).imp
    rintro ⟨b, j⟩ ⟨c, k⟩ hjk
    exact Prod.Lex.right i hjk
  · apply problem.pairwise_numberedActions.imp
    rintro ⟨a, i⟩ ⟨b, j⟩ hij first hfirst second hsecond
    obtain ⟨_, -, rfl⟩ := List.mem_map.mp hfirst
    obtain ⟨_, -, rfl⟩ := List.mem_map.mp hsecond
    exact Prod.Lex.left _ _ hij

end Problem

theorem Action.interferesWith_eq_false_of_disjoint {a b : Action}
    (h : ∀ fact ∈ a.facts, fact ∉ b.facts) : a.interferesWith b = false := by
  rw [Bool.eq_false_iff]
  intro hinterferes
  obtain ⟨fact, ha, hb⟩ := exists_common_of_interferesWith hinterferes
  exact h fact ha hb

/-- The search through common facts finds what the comparison of all pairs finds: each pair of
interfering actions once, the lower number first, in lexicographic order.  Actions without a common
fact never interfere, so none is missed. -/
theorem interferingPairs_exact (problem : Problem) :
    problem.interferingPairs = problem.interferingPairsByComparison ∧
    (∀ i j, (i, j) ∈ problem.interferingPairs ↔
      i < j ∧ ∃ a b, problem.action? i = some a ∧ problem.action? j = some b ∧
        a.interferesWith b = true) ∧
    problem.interferingPairs.Pairwise (Prod.Lex (· < ·) (· < ·)) ∧
    problem.interferingPairs.Nodup ∧
    ∀ a b : Action, (∀ fact ∈ a.facts, fact ∉ b.facts) → a.interferesWith b = false :=
  ⟨problem.interferingPairs_eq_byComparison, fun _ _ => Problem.mem_interferingPairs,
    problem.pairwise_interferingPairs, problem.pairwise_interferingPairs.nodup,
    fun _ _ => Action.interferesWith_eq_false_of_disjoint⟩

/-- A door that can be opened, passed in both directions and slammed so that it springs open again,
and a bell beside it. -/
def door : Problem where
  facts := ["open", "inside", "ringing"]
  actions := [⟨"open", [], [0], [0], []⟩, ⟨"enter", [0], [1], [1], []⟩, ⟨"slam", [0], [], [0], [0]⟩,
    ⟨"leave", [0, 1], [], [], [1]⟩, ⟨"ring", [], [], [2], []⟩]
  init := State.empty 3
  goal := ⟨[1], []⟩
  actions_inRange := by decide
  actions_normal := by simp [Action.Normal]
  init_size := rfl
  goal_inRange := by decide
  goal_pos_ascending := by decide
  goal_neg_ascending := by decide
  goal_consistent := by decide

theorem interferingPairs_exact_door :
    door.interferingPairs = [(0, 2), (1, 3)] ∧
    (Action.mk "enter" [0] [1] [1] []).interferesWith ⟨"ring", [], [], [2], []⟩ = false := by
  obtain ⟨hcomparison, -, -, -, hdisjoint⟩ := interferingPairs_exact door
  exact ⟨hcomparison.trans (by decide), hdisjoint _ _ (by decide)⟩

end BoundedPlanning
