import BoundedPlanning.Clause

namespace BoundedPlanning

/-- What is known of a variable or a literal. -/
inductive Truth
  | unknown
  | isTrue
  | isFalse
  deriving DecidableEq, Repr, Inhabited

namespace Truth

def ofBool (value : Bool) : Truth := if value then .isTrue else .isFalse

def opposite : Truth → Truth
  | .unknown => .unknown
  | .isTrue => .isFalse
  | .isFalse => .isTrue

def holds : Truth → Bool
  | .isTrue => true
  | _ => false

def fails : Truth → Bool
  | .isFalse => true
  | _ => false

def isOpen : Truth → Bool
  | .unknown => true
  | _ => false

theorem isOpen_iff {truth : Truth} : truth.isOpen = true ↔ truth = .unknown := by
  cases truth <;> decide

theorem ofBool_ne_unknown (value : Bool) : ofBool value ≠ .unknown := by
  cases value <;> decide

theorem opposite_eq_unknown {truth : Truth} : truth.opposite = .unknown ↔ truth = .unknown := by
  cases truth <;> decide

end Truth

/-- What is known of each variable, by its number. -/
structure Assignment where
  values : Array Truth
  deriving DecidableEq, Repr, Inhabited

namespace Assignment

/-- The assignment that covers the variables up to `maxVar` and knows none of them. -/
def allOpen (maxVar : Nat) : Assignment := ⟨Array.replicate (maxVar + 1) .unknown⟩

def truth (assignment : Assignment) (lit : Int) : Truth :=
  match assignment.values[lit.natAbs]? with
  | none => .isFalse
  | some truth => if 0 < lit then truth else truth.opposite

def assign (assignment : Assignment) (lit : Int) : Assignment :=
  ⟨assignment.values.setIfInBounds lit.natAbs (.ofBool (decide (0 < lit)))⟩

def openCount (assignment : Assignment) : Nat := assignment.values.count .unknown

/-- The variable of a literal that is not known is covered and not known. -/
theorem getElem?_of_truth_unknown {assignment : Assignment} {lit : Int}
    (h : assignment.truth lit = .unknown) :
    assignment.values[lit.natAbs]? = some .unknown := by
  unfold truth at h
  split at h
  · cases h
  · rename_i truth hvalue
    rw [hvalue]
    split at h
    · rw [h]
    · rw [Truth.opposite_eq_unknown.1 h]

theorem openCount_assign {assignment : Assignment} {lit : Int}
    (h : lit.natAbs < assignment.values.size) :
    (assignment.assign lit).openCount =
      assignment.openCount - if assignment.values[lit.natAbs] = .unknown then 1 else 0 := by
  have hset : assignment.values.setIfInBounds lit.natAbs (.ofBool (decide (0 < lit))) =
      assignment.values.set lit.natAbs (.ofBool (decide (0 < lit))) := by
    rw [Array.setIfInBounds_def, dif_pos h]
  have hne : (Truth.ofBool (decide (0 < lit)) == Truth.unknown) = false :=
    beq_eq_false_iff_ne.2 (Truth.ofBool_ne_unknown _)
  rw [openCount, assign, hset, Array.count_set h, hne, if_neg Bool.false_ne_true, Nat.add_zero,
    openCount]
  congr 2
  exact propext beq_iff_eq

theorem openCount_assign_lt {assignment : Assignment} {lit : Int}
    (h : assignment.truth lit = .unknown) :
    (assignment.assign lit).openCount < assignment.openCount := by
  obtain ⟨hlt, hget⟩ := Array.getElem?_eq_some_iff.1 (getElem?_of_truth_unknown h)
  have hpos : 0 < assignment.openCount :=
    Array.count_pos_iff.2 (hget ▸ Array.getElem_mem hlt)
  rw [openCount_assign hlt, if_pos hget]
  exact Nat.sub_lt hpos Nat.one_pos

theorem truth_neg_eq_unknown {assignment : Assignment} {lit : Int}
    (h : assignment.truth lit = .unknown) : assignment.truth (-lit) = .unknown := by
  unfold truth
  rw [Int.natAbs_neg, getElem?_of_truth_unknown h]
  exact ite_self Truth.unknown

end Assignment

end BoundedPlanning
