import BoundedPlanning.Solver.Assignment

/-!
Backtracking search with unit propagation.  Clauses are looked at in order; the search branches on
the first open literal of the first clause that is not satisfied, and tries it true first.  Clauses
that are satisfied stay so further down, so they may be left out there.
-/

namespace BoundedPlanning

/-- What a partial assignment makes a search do with a clause. -/
inductive ClauseStatus
  /-- All literals are false. -/
  | falsified
  /-- All literals are false but one occurrence, which is open. -/
  | unit (lit : Int)
  /-- A literal is true, or several occurrences of literals are open. -/
  | slack
  deriving DecidableEq, Repr

namespace Assignment

/-- The status of a clause of which the given open literal was seen, and these literals were not. -/
def statusBeside (assignment : Assignment) (lit : Int) : List Int → ClauseStatus
  | [] => .unit lit
  | other :: rest =>
    match assignment.truth other with
    | .isFalse => assignment.statusBeside lit rest
    | _ => .slack

/-- The status of a clause; a literal counts as often as it occurs.  Clauses are meant to have fewer
than `2 ^ 31` literals, so that open occurrences can be counted in 32 bits with a sign. -/
def status (assignment : Assignment) : List Int → ClauseStatus
  | [] => .falsified
  | lit :: rest =>
    match assignment.truth lit with
    | .isTrue => .slack
    | .isFalse => assignment.status rest
    | .unknown => assignment.statusBeside lit rest

theorem eq_of_statusBeside_unit {assignment : Assignment} {clause : List Int} {lit found : Int}
    (h : assignment.statusBeside lit clause = .unit found) : lit = found := by
  induction clause with
  | nil =>
    cases h
    rfl
  | cons other rest ih =>
    unfold statusBeside at h
    split at h
    · exact ih h
    · cases h

theorem truth_of_status_unit {assignment : Assignment} {clause : List Int} {lit : Int}
    (h : assignment.status clause = .unit lit) : assignment.truth lit = .unknown := by
  induction clause with
  | nil => cases h
  | cons first rest ih =>
    unfold status at h
    split at h
    · cases h
    · exact ih h
    · rename_i hopen
      exact eq_of_statusBeside_unit h ▸ hopen

/-- Go once through the clauses and make the literals of unit clauses true; `none` if a clause is
false.  The flag says whether a literal was made true. -/
def propagateOnce : List (List Int) → Assignment → Bool → Option (Assignment × Bool)
  | [], assignment, changed => some (assignment, changed)
  | clause :: rest, assignment, changed =>
    match assignment.status clause with
    | .falsified => none
    | .unit lit => propagateOnce rest (assignment.assign lit) true
    | _ => propagateOnce rest assignment changed

theorem openCount_propagateOnce {clauses : List (List Int)} {assignment next : Assignment}
    {before changed : Bool} (h : propagateOnce clauses assignment before = some (next, changed)) :
    next.openCount ≤ assignment.openCount ∧
      (changed = true → before = true ∨ next.openCount < assignment.openCount) := by
  induction clauses generalizing assignment before with
  | nil =>
    cases h
    exact ⟨Nat.le_refl _, Or.inl⟩
  | cons clause rest ih =>
    unfold propagateOnce at h
    split at h
    · cases h
    · rename_i lit hstatus
      have hlt := openCount_assign_lt (truth_of_status_unit hstatus)
      have hle := (ih h).1
      exact ⟨by omega, fun _ => Or.inr (by omega)⟩
    · exact ih h

/-- Make the literals of unit clauses true until there are no unit clauses; `none` if a clause
becomes false. -/
def propagate (clauses : List (List Int)) (assignment : Assignment) : Option Assignment :=
  match _h : propagateOnce clauses assignment false with
  | none => none
  | some (next, true) => propagate clauses next
  | some (next, false) => some next
termination_by assignment.openCount
decreasing_by simpa using (openCount_propagateOnce _h).2 rfl

theorem openCount_propagate_le {clauses : List (List Int)} {assignment next : Assignment}
    (h : propagate clauses assignment = some next) :
    next.openCount ≤ assignment.openCount := by
  fun_induction propagate clauses assignment with
  | case1 => cases h
  | case2 assignment middle hmiddle ih =>
    exact Nat.le_trans (ih h) (openCount_propagateOnce hmiddle).1
  | case3 assignment middle hmiddle =>
    cases h
    exact (openCount_propagateOnce hmiddle).1

def satisfies (assignment : Assignment) (clause : List Int) : Bool :=
  clause.any fun lit => (assignment.truth lit).holds

/-- The clauses without those in front that are satisfied, and, where these are more than a quarter
of the rest, without all that are. -/
def remaining (assignment : Assignment) (clauses : List (List Int)) : List (List Int) :=
  let left := clauses.dropWhile assignment.satisfies
  if left.length < 4 * left.countP assignment.satisfies then
    left.filter fun clause => !assignment.satisfies clause
  else left

def isOpen (assignment : Assignment) (lit : Int) : Bool := (assignment.truth lit).isOpen

def openLiteral? (assignment : Assignment) (clause : List Int) : Option Int :=
  if assignment.satisfies clause then none
  else clause.find? assignment.isOpen

theorem truth_of_openLiteral? {assignment : Assignment} {clause : List Int} {lit : Int}
    (h : assignment.openLiteral? clause = some lit) : assignment.truth lit = .unknown := by
  unfold openLiteral? at h
  split at h
  · cases h
  · have hopen : assignment.isOpen lit = true := List.find?_some h
    exact Truth.isOpen_iff.1 hopen

/-- The first open literal of the first clause that is not satisfied and has one. -/
def branchLiteral? (clauses : List (List Int)) (assignment : Assignment) : Option Int :=
  clauses.findSome? assignment.openLiteral?

theorem truth_of_branchLiteral? {clauses : List (List Int)} {assignment : Assignment} {lit : Int}
    (h : branchLiteral? clauses assignment = some lit) : assignment.truth lit = .unknown := by
  obtain ⟨clause, _, hopen⟩ := List.exists_of_findSome?_eq_some h
  exact truth_of_openLiteral? hopen

end Assignment

inductive SearchResult
  /-- An assignment under which no clause is left to satisfy. -/
  | found (assignment : Assignment)
  | exhausted
  | interrupted
  deriving DecidableEq, Repr

open Assignment in
/-- Search for a satisfying assignment below the given one.  `expired` says at which assignments
the search finds its time used up; it is asked whenever a branch is entered. -/
def search (clauses : List (List Int)) (expired : Assignment → Bool) (assignment : Assignment) :
    SearchResult :=
  if expired assignment then .interrupted
  else
    match _hnext : propagate clauses assignment with
    | none => .exhausted
    | some next =>
      let left := next.remaining clauses
      match _hlit : branchLiteral? left next with
      | none => .found next
      | some lit =>
        match search left expired (next.assign lit) with
        | .exhausted => search left expired (next.assign (-lit))
        | result => result
termination_by assignment.openCount
decreasing_by
  · exact Nat.lt_of_lt_of_le (openCount_assign_lt (truth_of_branchLiteral? _hlit))
      (openCount_propagate_le _hnext)
  · exact Nat.lt_of_lt_of_le
      (openCount_assign_lt (truth_neg_eq_unknown (truth_of_branchLiteral? _hlit)))
      (openCount_propagate_le _hnext)

end BoundedPlanning
