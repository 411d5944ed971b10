import BoundedPlanning.Proofs.Search

namespace BoundedPlanning

namespace Assignment

variable {assignment next last : Assignment} {truth : Nat → Bool} {lit : Int}
  {clause : List Int} {clauses : List (List Int)}

/-- A pass over the clauses in order, from one assignment to the one that it leaves behind.  It ends
with a flag that says whether it or what went before it made a literal true, and without one at a
clause that is false.  The open literals of a clause are counted as often as they occur. -/
inductive Pass : List (List Int) → Assignment → Bool → Assignment → Option Bool → Prop
  | finished {assignment : Assignment} {changed : Bool} :
      Pass [] assignment changed assignment (some changed)
  | satisfied {assignment next : Assignment} {clause : List Int} {rest : List (List Int)}
      {changed : Bool} {flag? : Option Bool} (hsatisfied : assignment.satisfies clause = true)
      (hrest : Pass rest assignment changed next flag?) :
      Pass (clause :: rest) assignment changed next flag?
  | falsified {assignment : Assignment} {clause : List Int} {rest : List (List Int)}
      {changed : Bool} (hsatisfied : assignment.satisfies clause = false)
      (hopen : clause.filter assignment.isOpen = []) :
      Pass (clause :: rest) assignment changed assignment none
  | unit {assignment next : Assignment} {clause : List Int} {rest : List (List Int)}
      {changed : Bool} {flag? : Option Bool} {lit : Int}
      (hsatisfied : assignment.satisfies clause = false)
      (hopen : clause.filter assignment.isOpen = [lit])
      (hrest : Pass rest (assignment.assign lit) true next flag?) :
      Pass (clause :: rest) assignment changed next flag?
  | several {assignment next : Assignment} {clause : List Int} {rest : List (List Int)}
      {changed : Bool} {flag? : Option Bool} (hsatisfied : assignment.satisfies clause = false)
      (hopen : 2 ≤ clause.countP assignment.isOpen)
      (hrest : Pass rest assignment changed next flag?) :
      Pass (clause :: rest) assignment changed next flag?

/-- Passes one after the other until one makes nothing true or meets a false clause: how many there
are, the assignment that the last one leaves behind, and whether it met no false clause. -/
inductive Propagates (clauses : List (List Int)) : Assignment → Nat → Assignment → Bool → Prop
  | conflict {assignment last : Assignment} (hpass : Pass clauses assignment false last none) :
      Propagates clauses assignment 1 last false
  | fixpoint {assignment last : Assignment}
      (hpass : Pass clauses assignment false last (some false)) :
      Propagates clauses assignment 1 last true
  | again {assignment next last : Assignment} {passes : Nat} {consistent : Bool}
      (hpass : Pass clauses assignment false next (some true))
      (hrest : Propagates clauses next passes last consistent) :
      Propagates clauses assignment (passes + 1) last consistent

theorem isOpen_iff : assignment.isOpen lit = true ↔ assignment.truth lit = .unknown :=
  Truth.isOpen_iff

theorem satisfies_cons (lit : Int) (rest : List Int) :
    assignment.satisfies (lit :: rest) =
      ((assignment.truth lit).holds || assignment.satisfies rest) := rfl

theorem statusBeside_eq :
    assignment.statusBeside lit clause =
      if assignment.satisfies clause = true ∨ clause.filter assignment.isOpen ≠ [] then .slack
      else .unit lit := by
  induction clause with
  | nil => rfl
  | cons other rest ih =>
      rw [statusBeside, satisfies_cons, List.filter_cons, isOpen]
      cases assignment.truth other with
      | unknown => simp [Truth.isOpen]
      | isTrue => simp [Truth.holds]
      | isFalse => simpa [Truth.holds, Truth.isOpen] using ih

/-- What becomes of a clause depends on whether it is satisfied and on its open occurrences. -/
theorem status_eq :
    assignment.status clause =
      if assignment.satisfies clause = true then .slack
      else
        match clause.filter assignment.isOpen with
        | [] => .falsified
        | [lit] => .unit lit
        | _ => .slack := by
  induction clause with
  | nil => rfl
  | cons first rest ih =>
      rw [status, satisfies_cons, List.filter_cons, isOpen]
      cases assignment.truth first with
      | isTrue => simp [Truth.holds]
      | isFalse => simpa [Truth.holds, Truth.isOpen] using ih
      | unknown =>
          simp only [statusBeside_eq, Truth.holds, Truth.isOpen, Bool.false_or, if_true]
          by_cases hsatisfied : assignment.satisfies rest = true
          · simp [hsatisfied]
          · cases hopen : rest.filter assignment.isOpen <;> simp [hsatisfied]

theorem status_of_satisfies (h : assignment.satisfies clause = true) :
    assignment.status clause = .slack := by
  rw [status_eq, if_pos h]

theorem status_of_several (h : 2 ≤ clause.countP assignment.isOpen) :
    assignment.status clause = .slack := by
  rw [List.countP_eq_length_filter] at h
  rw [status_eq]
  split
  · rfl
  · split
    · simp_all
    · simp_all
    · rfl

theorem status_eq_slack_iff :
    assignment.status clause = .slack ↔
      assignment.satisfies clause = true ∨ 2 ≤ clause.countP assignment.isOpen := by
  constructor
  · intro h
    rw [status_eq] at h
    split at h
    · rename_i hsatisfied
      exact Or.inl hsatisfied
    · split at h
      · cases h
      · cases h
      · rename_i hempty hsingle
        apply Or.inr
        rw [List.countP_eq_length_filter]
        match hopen : clause.filter assignment.isOpen with
        | [] => exact absurd hopen hempty
        | [lit] => exact absurd hopen (hsingle lit)
        | _ :: _ :: _ => simp
  · rintro (hsatisfied | hopen)
    · exact status_of_satisfies hsatisfied
    · exact status_of_several hopen

namespace Pass

variable {changed : Bool} {flag? : Option Bool}

theorem propagateOnce_eq (h : Pass clauses assignment changed next flag?) :
    propagateOnce clauses assignment changed = flag?.map fun flag => (next, flag) := by
  induction h with
  | finished => rfl
  | satisfied hsatisfied _ ih =>
      simp only [propagateOnce, status_of_satisfies hsatisfied]
      exact ih
  | falsified hsatisfied hopen => simp [propagateOnce, status_eq, hsatisfied, hopen]
  | unit hsatisfied hopen _ ih =>
      simp only [propagateOnce, status_eq, hsatisfied, hopen]
      exact ih
  | several _ hopen _ ih =>
      simp only [propagateOnce, status_of_several hopen]
      exact ih

theorem keeps_known (h : Pass clauses assignment changed next flag?) : assignment.Extends next := by
  induction h with
  | finished => exact extends_refl _
  | satisfied _ _ ih => exact ih
  | falsified => exact extends_refl _
  | @unit assignment _ clause _ _ _ lit _ hopen _ ih =>
      have hlit : lit ∈ clause.filter assignment.isOpen := hopen ▸ List.mem_singleton_self lit
      have hunknown := isOpen_iff.mp (List.mem_filter.mp hlit).2
      exact (extends_assign hunknown).trans ih
  | several _ _ _ ih => exact ih

end Pass

theorem exists_pass (clauses : List (List Int)) (assignment : Assignment) (changed : Bool) :
    ∃ next flag?, Pass clauses assignment changed next flag? := by
  induction clauses generalizing assignment changed with
  | nil => exact ⟨assignment, some changed, .finished⟩
  | cons clause rest ih =>
      cases hsatisfied : assignment.satisfies clause with
      | true =>
          obtain ⟨next, flag?, hrest⟩ := ih assignment changed
          exact ⟨next, flag?, .satisfied hsatisfied hrest⟩
      | false =>
          match hopen : clause.filter assignment.isOpen with
          | [] => exact ⟨assignment, none, .falsified hsatisfied hopen⟩
          | [lit] =>
              obtain ⟨next, flag?, hrest⟩ := ih (assignment.assign lit) true
              exact ⟨next, flag?, .unit hsatisfied hopen hrest⟩
          | first :: second :: others =>
              obtain ⟨next, flag?, hrest⟩ := ih assignment changed
              refine ⟨next, flag?, .several hsatisfied ?_ hrest⟩
              rw [List.countP_eq_length_filter, hopen]
              simp

/-- The passes come to an end, since every pass but the last makes a variable known. -/
theorem exists_propagates (clauses : List (List Int)) (assignment : Assignment) :
    ∃ passes last consistent, Propagates clauses assignment passes last consistent ∧
      passes ≤ assignment.openCount + 1 := by
  induction hcount : assignment.openCount using Nat.strong_induction_on generalizing assignment with
  | _ count ih =>
      obtain ⟨next, flag?, hpass⟩ := exists_pass clauses assignment false
      match flag?, hpass with
      | none, hpass => exact ⟨1, next, false, .conflict hpass, by omega⟩
      | some false, hpass => exact ⟨1, next, true, .fixpoint hpass, by omega⟩
      | some true, hpass =>
          have hless : next.openCount < assignment.openCount := by
            simpa using (openCount_propagateOnce hpass.propagateOnce_eq).2 rfl
          obtain ⟨passes, last, consistent, hrest, hpasses⟩ := ih _ (hcount ▸ hless) next rfl
          exact ⟨passes + 1, last, consistent, .again hpass hrest, by omega⟩

theorem propagate_eq_bind (clauses : List (List Int)) (assignment : Assignment) :
    propagate clauses assignment =
      (propagateOnce clauses assignment false).bind fun (next, changed) =>
        if changed then propagate clauses next else some next := by
  fun_cases propagate clauses assignment with
  | case1 hpass | case2 next hpass | case3 next hpass =>
      rw [hpass]
      rfl

namespace Propagates

variable {passes : Nat} {consistent : Bool}

theorem propagate_eq (h : Propagates clauses assignment passes last consistent) :
    propagate clauses assignment = if consistent then some last else none := by
  induction h with
  | conflict hpass | fixpoint hpass =>
      rw [propagate_eq_bind, hpass.propagateOnce_eq]
      rfl
  | again hpass _ ih =>
      rw [propagate_eq_bind, hpass.propagateOnce_eq]
      exact ih

theorem keeps_known (h : Propagates clauses assignment passes last consistent) :
    assignment.Extends last := by
  induction h with
  | conflict hpass => exact hpass.keeps_known
  | fixpoint hpass => exact hpass.keeps_known
  | again hpass _ ih => exact hpass.keeps_known.trans ih

end Propagates

theorem AgreesWith.holds_of_isTrue (h : AgreesWith truth assignment)
    (htrue : assignment.truth lit = .isTrue) : LiteralHolds truth lit :=
  h _ _ (getElem?_of_truth_isTrue htrue)

theorem mem_of_branchLiteral? (h : branchLiteral? clauses assignment = some lit) :
    ∃ clause ∈ clauses, lit ∈ clause ∧ assignment.satisfies clause = false := by
  obtain ⟨clause, hclause, hopen⟩ := List.exists_of_findSome?_eq_some h
  unfold openLiteral? at hopen
  split at hopen
  · cases hopen
  · rename_i hsatisfied
    exact ⟨clause, hclause, List.mem_of_find?_eq_some hopen, Bool.eq_false_of_not_eq_true hsatisfied⟩

/-- Leaving out satisfied clauses does not change the literal to branch on. -/
theorem branchLiteral?_remaining (clauses : List (List Int)) (assignment : Assignment) :
    branchLiteral? (assignment.remaining clauses) assignment =
      branchLiteral? clauses assignment := by
  have hdrop : (clauses.dropWhile assignment.satisfies).findSome? assignment.openLiteral? =
      clauses.findSome? assignment.openLiteral? := by
    induction clauses with
    | nil => rfl
    | cons clause rest ih =>
        by_cases hsatisfied : assignment.satisfies clause = true
        · rw [List.dropWhile_cons_of_pos hsatisfied, ih, List.findSome?_cons, openLiteral?,
            if_pos hsatisfied]
        · rw [List.dropWhile_cons_of_neg hsatisfied]
  have hfilter : ∀ left : List (List Int),
      (left.filter fun clause => !assignment.satisfies clause).findSome? assignment.openLiteral? =
        left.findSome? assignment.openLiteral? := by
    intro left
    induction left with
    | nil => rfl
    | cons clause rest ih =>
        by_cases hsatisfied : assignment.satisfies clause = true
        · rw [List.filter_cons_of_neg (by simpa using hsatisfied), ih, List.findSome?_cons,
            openLiteral?, if_pos hsatisfied]
        · rw [List.filter_cons_of_pos (by simpa using hsatisfied), List.findSome?_cons,
            List.findSome?_cons, ih]
  unfold branchLiteral? remaining
  simp only
  split
  · rw [hfilter, hdrop]
  · exact hdrop

end Assignment

open Assignment

/-- Propagation ends, after at most one pass more than there are open variables, and keeps what was
known.  Where it meets no false clause, what it made known holds whenever the clauses hold, every
clause is satisfied or has two open occurrences left, and there is an open literal to branch on,
of a clause that is not satisfied, unless all clauses are.  Where it meets a false clause, the
clauses cannot all hold. -/
theorem propagation_reaches_fixpoint {clauses : List (List Int)} {assignment : Assignment}
    (hcovers : ∀ clause ∈ clauses, assignment.Covers clause) :
    (∃ passes last consistent, Propagates clauses assignment passes last consistent ∧
      passes ≤ assignment.openCount + 1) ∧
    ∀ passes last consistent, Propagates clauses assignment passes last consistent →
      propagate clauses assignment = (if consistent then some last else none) ∧
      assignment.Extends last ∧
      (consistent = true →
        (∀ truth lit, AgreesWith truth assignment →
          (∀ clause ∈ clauses, (Valuation.total truth).Satisfies clause) →
          assignment.truth lit = .unknown → last.truth lit = .isTrue → LiteralHolds truth lit) ∧
        (∀ clause ∈ clauses,
          last.satisfies clause = true ∨ 2 ≤ clause.countP last.isOpen) ∧
        (branchLiteral? clauses last = none → ∀ clause ∈ clauses, last.satisfies clause = true) ∧
        (∀ lit, branchLiteral? clauses last = some lit → last.truth lit = .unknown ∧
          ∃ clause ∈ clauses, lit ∈ clause ∧ last.satisfies clause = false) ∧
        branchLiteral? (last.remaining clauses) last = branchLiteral? clauses last) ∧
      (consistent = false → ∀ truth, AgreesWith truth assignment →
        ¬ ∀ clause ∈ clauses, (Valuation.total truth).Satisfies clause) := by
  refine ⟨exists_propagates clauses assignment, fun passes last consistent hrun => ?_⟩
  have heq := hrun.propagate_eq
  refine ⟨heq, hrun.keeps_known, ?_, ?_⟩
  · rintro rfl
    have hslack := status_of_propagate heq
    refine ⟨?_, fun clause hclause => status_eq_slack_iff.mp (hslack clause hclause),
      fun hnone => satisfies_of_branchLiteral?_eq_none hnone hslack,
      fun lit hlit => ⟨truth_of_branchLiteral? hlit, mem_of_branchLiteral? hlit⟩,
      branchLiteral?_remaining clauses last⟩
    intro truth lit hagrees hsatisfied _ htrue
    obtain ⟨found, hfound, hfoundAgrees⟩ := hagrees.exists_propagate hcovers hsatisfied
    rw [heq, if_pos rfl, Option.some.injEq] at hfound
    subst hfound
    exact hfoundAgrees.holds_of_isTrue htrue
  · rintro rfl truth hagrees hsatisfied
    obtain ⟨found, hfound, -⟩ := hagrees.exists_propagate hcovers hsatisfied
    rw [heq] at hfound
    cases hfound

def implications : List (List Int) := [[-2, 3], [1, 2], [-3, 4, 4]]

def firstFalse : Assignment := ⟨#[.unknown, .isFalse, .unknown, .unknown, .unknown]⟩

theorem propagation_reaches_fixpoint_implications :
    (∀ clause ∈ implications ++ [[-3]], firstFalse.Covers clause) ∧
    (∃ last, Propagates implications firstFalse 3 last true ∧
      propagate implications firstFalse = some last ∧
      last.values = #[.unknown, .isFalse, .isTrue, .isTrue, .unknown] ∧
      (∀ truth, AgreesWith truth firstFalse →
        (∀ clause ∈ implications, (Valuation.total truth).Satisfies clause) →
        LiteralHolds truth 3) ∧
      (∀ clause ∈ implications, last.satisfies clause = true ∨ 2 ≤ clause.countP last.isOpen) ∧
      branchLiteral? implications last = some 4) ∧
    ∃ last, Propagates (implications ++ [[-3]]) firstFalse 2 last false ∧
      last.values = #[.unknown, .isFalse, .isTrue, .isFalse, .unknown] ∧
      firstFalse.Extends last ∧
      ∀ truth, AgreesWith truth firstFalse →
        ¬ ∀ clause ∈ implications ++ [[-3]], (Valuation.total truth).Satisfies clause := by
  have hcovers : ∀ clause ∈ implications ++ [[-3]], firstFalse.Covers clause := by
    simp [implications, firstFalse, Covers]
  have hfixpoint : Propagates implications firstFalse 3
      ⟨#[.unknown, .isFalse, .isTrue, .isTrue, .unknown]⟩ true := by
    apply Propagates.again
      (.several rfl (by decide) (.unit rfl rfl (.several rfl (by decide) .finished)))
    apply Propagates.again
      (.unit rfl rfl (.satisfied rfl (.several rfl (by decide) .finished)))
    exact .fixpoint (.satisfied rfl (.satisfied rfl (.several rfl (by decide) .finished)))
  have hconflict : Propagates (implications ++ [[-3]]) firstFalse 2
      ⟨#[.unknown, .isFalse, .isTrue, .isFalse, .unknown]⟩ false := by
    apply Propagates.again
      (.several rfl (by decide) (.unit rfl rfl (.several rfl (by decide) (.unit rfl rfl .finished))))
    exact .conflict (.falsified rfl rfl)
  refine ⟨hcovers, ⟨_, hfixpoint, ?_⟩, ⟨_, hconflict, rfl, ?_⟩⟩
  · obtain ⟨-, hends⟩ := propagation_reaches_fixpoint fun clause hclause =>
      hcovers clause (List.mem_append_left _ hclause)
    obtain ⟨hresult, -, hreached, -⟩ := hends _ _ _ hfixpoint
    obtain ⟨hentailed, hleft, -⟩ := hreached rfl
    exact ⟨hresult, rfl, fun truth hagrees hsatisfied =>
      hentailed truth 3 hagrees hsatisfied rfl rfl, hleft, rfl⟩
  · obtain ⟨-, hends⟩ := propagation_reaches_fixpoint hcovers
    obtain ⟨-, hextends, -, hrefuted⟩ := hends _ _ _ hconflict
    exact ⟨hextends, hrefuted rfl⟩

end BoundedPlanning
