import BoundedPlanning.Proofs.Valuation
import BoundedPlanning.Solver.Search

namespace BoundedPlanning

def LiteralHolds (truth : Nat → Bool) (lit : Int) : Prop := truth lit.natAbs = decide (0 < lit)

theorem literalHolds_neg {truth : Nat → Bool} {lit : Int} (hlit : lit ≠ 0)
    (h : ¬ LiteralHolds truth lit) : LiteralHolds truth (-lit) := by
  have hsign : decide (0 < -lit) = !decide (0 < lit) := by
    rw [Bool.eq_iff_iff, Bool.not_eq_true', decide_eq_true_eq, decide_eq_false_iff_not]
    omega
  rw [LiteralHolds, Int.natAbs_neg, hsign]
  exact Bool.eq_not_of_ne h

theorem Valuation.satisfies_total_iff {truth : Nat → Bool} {clause : List Int} :
    (Valuation.total truth).Satisfies clause ↔ ∃ lit ∈ clause, LiteralHolds truth lit := by
  simp only [Valuation.Satisfies, Valuation.total, Option.some.injEq, LiteralHolds]

namespace Assignment

variable {assignment next : Assignment} {truth : Nat → Bool} {lit : Int}
  {clause : List Int} {clauses : List (List Int)}

/-- The literals are non-zero and of variables that the assignment covers. -/
def Covers (assignment : Assignment) (clause : List Int) : Prop :=
  ∀ lit ∈ clause, lit ≠ 0 ∧ lit.natAbs < assignment.values.size

def AgreesWith (truth : Nat → Bool) (assignment : Assignment) : Prop :=
  ∀ (var : Nat) (value : Bool), assignment.values[var]? = some (Truth.ofBool value) → truth var = value

/-- The second assignment knows at least what the first one knows. -/
structure Extends (assignment next : Assignment) : Prop where
  size_eq : next.values.size = assignment.values.size
  known : ∀ var : Nat, assignment.values[var]? ≠ some Truth.unknown →
    next.values[var]? = assignment.values[var]?

theorem extends_refl (assignment : Assignment) : assignment.Extends assignment :=
  ⟨rfl, fun _ _ => rfl⟩

theorem Extends.trans {last : Assignment} (h : assignment.Extends next)
    (h' : next.Extends last) : assignment.Extends last := by
  refine ⟨h'.size_eq.trans h.size_eq, fun var hvar => ?_⟩
  rw [h'.known var (h.known var hvar ▸ hvar), h.known var hvar]

theorem Extends.truth_eq (h : assignment.Extends next) (hknown : assignment.truth lit ≠ .unknown) :
    next.truth lit = assignment.truth lit := by
  have hvar : assignment.values[lit.natAbs]? ≠ some Truth.unknown := by
    intro hunknown
    rw [truth, hunknown] at hknown
    exact hknown (ite_self Truth.unknown)
  rw [truth, h.known _ hvar, truth]

theorem Extends.covers (h : assignment.Extends next) (hcovers : assignment.Covers clause) :
    next.Covers clause := by
  intro lit hlit
  rw [h.size_eq]
  exact hcovers lit hlit

theorem getElem?_of_truth_isTrue (h : assignment.truth lit = .isTrue) :
    assignment.values[lit.natAbs]? = some (Truth.ofBool (decide (0 < lit))) := by
  unfold truth at h
  split at h
  · cases h
  · rename_i value hvalue
    rw [hvalue]
    by_cases hpos : 0 < lit
    · rw [if_pos hpos] at h
      rw [h, decide_eq_true hpos]
      rfl
    · rw [if_neg hpos] at h
      rw [decide_eq_false hpos]
      cases value <;> first | rfl | cases h

theorem getElem?_of_truth_isFalse (hlit : lit.natAbs < assignment.values.size)
    (h : assignment.truth lit = .isFalse) :
    assignment.values[lit.natAbs]? = some (Truth.ofBool (!decide (0 < lit))) := by
  unfold truth at h
  split at h
  · rename_i hnone
    rw [Array.getElem?_eq_getElem hlit] at hnone
    cases hnone
  · rename_i value hvalue
    rw [hvalue]
    by_cases hpos : 0 < lit
    · rw [if_pos hpos] at h
      rw [h, decide_eq_true hpos]
      rfl
    · rw [if_neg hpos] at h
      rw [decide_eq_false hpos]
      cases value <;> first | rfl | cases h

theorem AgreesWith.not_holds (h : AgreesWith truth assignment)
    (hcovered : lit.natAbs < assignment.values.size) (hlit : assignment.truth lit = .isFalse) :
    ¬ LiteralHolds truth lit := by
  intro hholds
  have hvalue := h _ _ (getElem?_of_truth_isFalse hcovered hlit)
  rw [LiteralHolds, hvalue] at hholds
  simp at hholds

theorem getElem?_assign (var : Nat) :
    (assignment.assign lit).values[var]? =
      if lit.natAbs = var ∧ var < assignment.values.size then
        some (Truth.ofBool (decide (0 < lit)))
      else assignment.values[var]? := by
  rw [assign, Array.getElem?_setIfInBounds]
  by_cases hvar : lit.natAbs = var
  · subst hvar
    by_cases hsize : lit.natAbs < assignment.values.size
    · simp [hsize]
    · simp [hsize]
  · simp [hvar]

theorem AgreesWith.assign (h : AgreesWith truth assignment) (hlit : LiteralHolds truth lit) :
    AgreesWith truth (assignment.assign lit) := by
  intro var value hvalue
  rw [getElem?_assign] at hvalue
  split at hvalue
  · rename_i hvar
    have hsame : Truth.ofBool (decide (0 < lit)) = Truth.ofBool value := Option.some.inj hvalue
    have hbool : decide (0 < lit) = value := by
      cases hdecide : decide (0 < lit) <;> cases value <;> simp_all [Truth.ofBool]
    rw [← hvar.1, ← hbool]
    exact hlit
  · exact h var value hvalue

theorem extends_assign (h : assignment.truth lit = .unknown) :
    assignment.Extends (assignment.assign lit) := by
  refine ⟨by simp [Assignment.assign], fun var hvar => ?_⟩
  rw [getElem?_assign, if_neg]
  rintro ⟨rfl, -⟩
  exact hvar (getElem?_of_truth_unknown h)

theorem truth_assign (hlit : lit.natAbs < assignment.values.size) :
    (assignment.assign lit).truth lit = .isTrue := by
  rw [truth, getElem?_assign, if_pos ⟨rfl, hlit⟩]
  by_cases hpos : 0 < lit
  · simp [hpos, Truth.ofBool]
  · simp [hpos, Truth.ofBool, Truth.opposite]

theorem statusBeside_ne_falsified : assignment.statusBeside lit clause ≠ .falsified := by
  induction clause with
  | nil => simp [statusBeside]
  | cons other rest ih =>
      unfold statusBeside
      split
      · exact ih
      · simp

theorem truth_of_statusBeside_unit {found : Int} (h : assignment.statusBeside lit clause = .unit found) :
    ∀ other ∈ clause, assignment.truth other = .isFalse := by
  induction clause with
  | nil => simp
  | cons other rest ih =>
      unfold statusBeside at h
      split at h
      · rename_i hfalse
        exact List.forall_mem_cons.mpr ⟨hfalse, ih h⟩
      · cases h

theorem truth_of_status_falsified (h : assignment.status clause = .falsified) :
    ∀ lit ∈ clause, assignment.truth lit = .isFalse := by
  induction clause with
  | nil => simp
  | cons first rest ih =>
      unfold status at h
      split at h
      · cases h
      · rename_i hfalse
        exact List.forall_mem_cons.mpr ⟨hfalse, ih h⟩
      · exact absurd h statusBeside_ne_falsified

/-- A clause without a true or an open literal is false. -/
theorem status_eq_falsified (h : ∀ lit ∈ clause, assignment.truth lit = .isFalse) :
    assignment.status clause = .falsified := by
  induction clause with
  | nil => rfl
  | cons first rest ih =>
      rw [List.forall_mem_cons] at h
      simp only [status, h.1]
      exact ih h.2

theorem eq_or_truth_of_status_unit (h : assignment.status clause = .unit lit) :
    lit ∈ clause ∧ ∀ other ∈ clause, other = lit ∨ assignment.truth other = .isFalse := by
  induction clause with
  | nil => cases h
  | cons first rest ih =>
      unfold status at h
      split at h
      · cases h
      · rename_i hfalse
        obtain ⟨hmem, hothers⟩ := ih h
        exact ⟨List.mem_cons_of_mem _ hmem, List.forall_mem_cons.mpr ⟨Or.inr hfalse, hothers⟩⟩
      · have hfirst := eq_of_statusBeside_unit h
        refine ⟨hfirst ▸ List.mem_cons_self, List.forall_mem_cons.mpr ⟨Or.inl hfirst, ?_⟩⟩
        exact fun other hother => Or.inr (truth_of_statusBeside_unit h other hother)

/-- A false clause has no satisfying truth values among those that agree. -/
theorem AgreesWith.not_satisfies (h : AgreesWith truth assignment)
    (hcovers : assignment.Covers clause) (hstatus : assignment.status clause = .falsified) :
    ¬ (Valuation.total truth).Satisfies clause := by
  rw [Valuation.satisfies_total_iff]
  rintro ⟨lit, hlit, hholds⟩
  exact h.not_holds (hcovers lit hlit).2 (truth_of_status_falsified hstatus lit hlit) hholds

/-- The open literal of a unit clause is a consequence. -/
theorem AgreesWith.holds_of_unit (h : AgreesWith truth assignment)
    (hcovers : assignment.Covers clause) (hstatus : assignment.status clause = .unit lit)
    (hsatisfied : (Valuation.total truth).Satisfies clause) : LiteralHolds truth lit := by
  obtain ⟨other, hother, hholds⟩ := Valuation.satisfies_total_iff.mp hsatisfied
  rcases (eq_or_truth_of_status_unit hstatus).2 other hother with heq | hfalse
  · exact heq ▸ hholds
  · exact absurd hholds (h.not_holds (hcovers other hother).2 hfalse)

theorem extends_propagateOnce {before changed : Bool}
    (h : propagateOnce clauses assignment before = some (next, changed)) :
    assignment.Extends next := by
  induction clauses generalizing assignment before with
  | nil =>
      cases h
      exact extends_refl next
  | cons clause rest ih =>
      unfold propagateOnce at h
      split at h
      · cases h
      · rename_i lit hstatus
        exact (extends_assign (truth_of_status_unit hstatus)).trans (ih h)
      · exact ih h

theorem AgreesWith.exists_propagateOnce {before : Bool} (hagrees : AgreesWith truth assignment)
    (hcovers : ∀ clause ∈ clauses, assignment.Covers clause)
    (hsatisfied : ∀ clause ∈ clauses, (Valuation.total truth).Satisfies clause) :
    ∃ next changed, propagateOnce clauses assignment before = some (next, changed) ∧
      AgreesWith truth next := by
  induction clauses generalizing assignment before with
  | nil => exact ⟨assignment, before, rfl, hagrees⟩
  | cons clause rest ih =>
      rw [List.forall_mem_cons] at hcovers hsatisfied
      unfold propagateOnce
      split
      · rename_i hstatus
        exact absurd hsatisfied.1 (hagrees.not_satisfies hcovers.1 hstatus)
      · rename_i lit hstatus
        have hlit := hagrees.holds_of_unit hcovers.1 hstatus hsatisfied.1
        have hextends := extends_assign (truth_of_status_unit hstatus)
        exact ih (hagrees.assign hlit)
          (fun other hother => hextends.covers (hcovers.2 other hother)) hsatisfied.2
      · exact ih hagrees hcovers.2 hsatisfied.2

/-- A pass that makes nothing true finds every clause slack. -/
theorem status_of_propagateOnce_unchanged {before : Bool}
    (h : propagateOnce clauses assignment before = some (next, false)) :
    before = false ∧ next = assignment ∧
      ∀ clause ∈ clauses, assignment.status clause = .slack := by
  have hflag : ∀ {clauses : List (List Int)} {assignment : Assignment},
      propagateOnce clauses assignment true ≠ some (next, false) := by
    intro clauses
    induction clauses with
    | nil => simp [propagateOnce]
    | cons clause rest ih =>
        intro assignment
        unfold propagateOnce
        split
        · simp
        · exact ih
        · exact ih
  induction clauses generalizing before with
  | nil =>
      cases h
      simp
  | cons clause rest ih =>
      unfold propagateOnce at h
      split at h
      · cases h
      · exact absurd h hflag
      · rename_i hfalsified hunit
        obtain ⟨hbefore, hnext, hslack⟩ := ih h
        refine ⟨hbefore, hnext, List.forall_mem_cons.mpr ⟨?_, hslack⟩⟩
        cases hstatus : assignment.status clause with
        | falsified => exact absurd hstatus hfalsified
        | unit lit => exact absurd hstatus (hunit lit)
        | slack => rfl

theorem extends_propagate (h : propagate clauses assignment = some next) :
    assignment.Extends next := by
  fun_induction propagate clauses assignment with
  | case1 => cases h
  | case2 assignment middle hmiddle ih => exact (extends_propagateOnce hmiddle).trans (ih h)
  | case3 assignment middle hmiddle =>
      cases h
      exact extends_propagateOnce hmiddle

theorem status_of_propagate (h : propagate clauses assignment = some next) :
    ∀ clause ∈ clauses, next.status clause = .slack := by
  fun_induction propagate clauses assignment with
  | case1 => cases h
  | case2 assignment middle hmiddle ih => exact ih h
  | case3 assignment middle hmiddle =>
      cases h
      obtain ⟨-, rfl, hslack⟩ := status_of_propagateOnce_unchanged hmiddle
      exact hslack

theorem AgreesWith.exists_propagate (hagrees : AgreesWith truth assignment)
    (hcovers : ∀ clause ∈ clauses, assignment.Covers clause)
    (hsatisfied : ∀ clause ∈ clauses, (Valuation.total truth).Satisfies clause) :
    ∃ next, propagate clauses assignment = some next ∧ AgreesWith truth next := by
  fun_induction propagate clauses assignment with
  | case1 assignment hnone =>
      obtain ⟨next, changed, hnext, -⟩ := hagrees.exists_propagateOnce hcovers hsatisfied
      rw [hnone] at hnext
      cases hnext
  | case2 assignment middle hmiddle ih =>
      obtain ⟨next, changed, hnext, hnextAgrees⟩ :=
        hagrees.exists_propagateOnce hcovers hsatisfied
      rw [hmiddle] at hnext
      cases hnext
      have hextends := extends_propagateOnce hmiddle
      exact ih hnextAgrees fun clause hclause => hextends.covers (hcovers clause hclause)
  | case3 assignment middle hmiddle =>
      obtain ⟨next, changed, hnext, hnextAgrees⟩ :=
        hagrees.exists_propagateOnce hcovers hsatisfied
      rw [hmiddle] at hnext
      cases hnext
      exact ⟨middle, rfl, hnextAgrees⟩

end Assignment

end BoundedPlanning
