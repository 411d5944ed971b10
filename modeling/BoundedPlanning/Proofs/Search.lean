import BoundedPlanning.Proofs.Propagation

namespace BoundedPlanning

namespace Assignment

variable {assignment next : Assignment} {truth : Nat → Bool} {lit : Int}
  {clause : List Int} {clauses : List (List Int)}

theorem satisfies_iff :
    assignment.satisfies clause = true ↔ ∃ lit ∈ clause, assignment.truth lit = .isTrue := by
  have htrue : ∀ value : Truth, value.holds = true ↔ value = .isTrue := by
    intro value
    cases value <;> decide
  simp only [satisfies, List.any_eq_true, htrue]

theorem Extends.satisfies (h : assignment.Extends next)
    (hsatisfies : assignment.satisfies clause = true) : next.satisfies clause = true := by
  obtain ⟨lit, hlit, htrue⟩ := satisfies_iff.mp hsatisfies
  refine satisfies_iff.mpr ⟨lit, hlit, ?_⟩
  rw [h.truth_eq (by rw [htrue]; simp), htrue]

theorem mem_of_mem_remaining (h : clause ∈ assignment.remaining clauses) : clause ∈ clauses := by
  dsimp only [remaining] at h
  split at h
  · exact (List.dropWhile_sublist _).mem (List.mem_filter.mp h).1
  · exact (List.dropWhile_sublist _).mem h

/-- Only satisfied clauses are left out. -/
theorem mem_remaining (h : clause ∈ clauses) (hopen : assignment.satisfies clause ≠ true) :
    clause ∈ assignment.remaining clauses := by
  have hleft : clause ∈ clauses.dropWhile assignment.satisfies := by
    induction clauses with
    | nil => cases h
    | cons first rest ih =>
        rcases List.mem_cons.mp h with rfl | hrest
        · rw [List.dropWhile_cons_of_neg hopen]
          exact List.mem_cons_self
        · by_cases hfirst : assignment.satisfies first = true
          · rw [List.dropWhile_cons_of_pos hfirst]
            exact ih hrest
          · rw [List.dropWhile_cons_of_neg hfirst]
            exact h
  dsimp only [remaining]
  split
  · exact List.mem_filter.mpr ⟨hleft, by simpa using hopen⟩
  · exact hleft

theorem exists_mem_of_branchLiteral? (h : branchLiteral? clauses assignment = some lit) :
    ∃ clause ∈ clauses, lit ∈ clause := by
  obtain ⟨clause, hclause, hopen⟩ := List.exists_of_findSome?_eq_some h
  unfold openLiteral? at hopen
  split at hopen
  · cases hopen
  · exact ⟨clause, hclause, List.mem_of_find?_eq_some hopen⟩

/-- A slack clause without an open literal to branch on is satisfied. -/
theorem satisfies_of_branchLiteral?_eq_none (h : branchLiteral? clauses assignment = none)
    (hslack : ∀ clause ∈ clauses, assignment.status clause = .slack) :
    ∀ clause ∈ clauses, assignment.satisfies clause = true := by
  intro clause hclause
  by_contra hopen
  have hnone := List.findSome?_eq_none_iff.mp h clause hclause
  rw [openLiteral?, if_neg hopen, List.find?_eq_none] at hnone
  have hfalse : ∀ lit ∈ clause, assignment.truth lit = .isFalse := by
    intro lit hlit
    cases htruth : assignment.truth lit with
    | unknown => exact absurd (Truth.isOpen_iff.mpr htruth) (hnone lit hlit)
    | isTrue => exact absurd (satisfies_iff.mpr ⟨lit, hlit, htruth⟩) hopen
    | isFalse => rfl
  have hstatus := hslack clause hclause
  rw [status_eq_falsified hfalse] at hstatus
  cases hstatus

end Assignment

open Assignment

variable {assignment last : Assignment} {truth : Nat → Bool} {clauses : List (List Int)}
  {expired : Assignment → Bool}

/-- What a branch finds satisfies also the clauses that were left out when it was entered. -/
theorem satisfies_of_branch {next : Assignment} {lit : Int}
    (hopen : next.truth lit = .unknown) (hextends : (next.assign lit).Extends last)
    (hleft : ∀ clause ∈ next.remaining clauses, last.satisfies clause = true) :
    next.Extends last ∧ ∀ clause ∈ clauses, last.satisfies clause = true := by
  have hlast := (extends_assign hopen).trans hextends
  refine ⟨hlast, fun clause hclause => ?_⟩
  by_cases hsatisfied : next.satisfies clause = true
  · exact hlast.satisfies hsatisfied
  · exact hleft clause (mem_remaining hclause hsatisfied)

theorem satisfies_of_search_found (h : search clauses expired assignment = .found last) :
    assignment.Extends last ∧ ∀ clause ∈ clauses, last.satisfies clause = true := by
  fun_induction search clauses expired assignment with
  | case1 => cases h
  | case2 => cases h
  | case3 clauses assignment hexpired next hnext left hlit =>
      cases h
      refine ⟨extends_propagate hnext, fun clause hclause => ?_⟩
      by_contra hopen
      refine hopen (satisfies_of_branchLiteral?_eq_none hlit (fun other hother => ?_) clause
        (mem_remaining hclause hopen))
      exact status_of_propagate hnext other (mem_of_mem_remaining hother)
  | case4 clauses assignment hexpired next hnext left lit hlit hfirst ihFirst ihSecond =>
      obtain ⟨hextends, hleft⟩ := ihSecond h
      obtain ⟨hlast, hall⟩ := satisfies_of_branch
        (truth_neg_eq_unknown (truth_of_branchLiteral? hlit)) hextends hleft
      exact ⟨(extends_propagate hnext).trans hlast, hall⟩
  | case5 clauses assignment hexpired next hnext left lit hlit hfirst ihFirst =>
      obtain ⟨hextends, hleft⟩ := ihFirst h
      obtain ⟨hlast, hall⟩ := satisfies_of_branch (truth_of_branchLiteral? hlit) hextends hleft
      exact ⟨(extends_propagate hnext).trans hlast, hall⟩

theorem not_satisfies_of_search_exhausted (h : search clauses expired assignment = .exhausted)
    (hcovers : ∀ clause ∈ clauses, assignment.Covers clause)
    (hagrees : AgreesWith truth assignment) :
    ¬ ∀ clause ∈ clauses, (Valuation.total truth).Satisfies clause := by
  fun_induction search clauses expired assignment with
  | case1 => cases h
  | case2 clauses assignment hexpired hnone =>
      intro hsatisfied
      obtain ⟨next, hnext, -⟩ := hagrees.exists_propagate hcovers hsatisfied
      rw [hnone] at hnext
      cases hnext
  | case3 => cases h
  | case4 clauses assignment hexpired next hnext left lit hlit hfirst ihFirst ihSecond =>
      intro hsatisfied
      have hleft : ∀ clause ∈ left, clause ∈ clauses := fun _ => mem_of_mem_remaining
      obtain ⟨found, hfound, hfoundAgrees⟩ := hagrees.exists_propagate hcovers hsatisfied
      rw [hnext] at hfound
      cases hfound
      have hopen := truth_of_branchLiteral? hlit
      obtain ⟨clause, hclause, hmem⟩ := exists_mem_of_branchLiteral? hlit
      have hnonzero := (hcovers clause (hleft clause hclause) lit hmem).1
      have hextends := extends_propagate hnext
      -- The two branches make opposite values of one variable known.
      by_cases hholds : LiteralHolds truth lit
      · refine ihFirst hfirst (fun other hother => ?_) (hfoundAgrees.assign hholds)
          fun other hother => hsatisfied other (hleft other hother)
        exact (hextends.trans (extends_assign hopen)).covers (hcovers other (hleft other hother))
      · refine ihSecond h (fun other hother => ?_)
          (hfoundAgrees.assign (literalHolds_neg hnonzero hholds))
          fun other hother => hsatisfied other (hleft other hother)
        exact (hextends.trans (extends_assign (truth_neg_eq_unknown hopen))).covers
          (hcovers other (hleft other hother))
  | case5 clauses assignment hexpired next hnext left lit hlit hfirst ihFirst =>
      exact absurd h hfirst

theorem exists_expired_of_search_interrupted
    (h : search clauses expired assignment = .interrupted) : ∃ reached, expired reached = true := by
  fun_induction search clauses expired assignment with
  | case1 clauses assignment hexpired => exact ⟨assignment, hexpired⟩
  | case2 => cases h
  | case3 => cases h
  | case4 clauses assignment hexpired next hnext left lit hlit hfirst ihFirst ihSecond =>
      exact ihSecond h
  | case5 clauses assignment hexpired next hnext left lit hlit hfirst ihFirst => exact ihFirst h

end BoundedPlanning
