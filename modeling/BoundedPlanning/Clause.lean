import BoundedPlanning.Ascending

/-!
Clauses in canonical form.  A literal is a non-zero integer: its absolute value is the variable,
its sign the value asked for.  A clause lists its literals with strictly increasing variables, so
each set of literals without opposing pairs has exactly one clause.
-/

namespace BoundedPlanning

/-- The literal that asks for the given value of a variable. -/
def literal (var : Nat) (value : Bool) : Int := if value then (var : Int) else -(var : Int)

def variableLabel (var : Nat) : String := s!"v{var}"

/-- The order of literals in a clause: by variable, the negative literal first. -/
def literalLe (a b : Int) : Bool :=
  decide (a.natAbs < b.natAbs) || (decide (a.natAbs = b.natAbs) && decide (a ≤ b))

inductive ClauseFault
  | zeroLiteral
  | bothPolarities
  deriving DecidableEq, Repr

def ClauseFault.text : ClauseFault → String
  | .zeroLiteral => "literal 0"
  | .bothPolarities => "both polarities of a variable"

/-- The literals as they were when the fault was found. -/
structure ClauseError where
  literals : List Int
  fault : ClauseFault
  deriving DecidableEq, Repr

/-- A clause in canonical form. -/
structure Clause where
  literals : List Int
  nonzero : ∀ lit ∈ literals, lit ≠ 0
  increasing : literals.Pairwise fun a b => a.natAbs < b.natAbs
  deriving DecidableEq

/-- The first two neighbours of a list of literals share a variable. -/
def hasNeighboursOfOneVariable : List Int → Bool
  | a :: b :: rest => a.natAbs == b.natAbs || hasNeighboursOfOneVariable (b :: rest)
  | _ => false

theorem literalLe_total (a b : Int) : (literalLe a b || literalLe b a) = true := by
  simp only [literalLe, Bool.or_eq_true, Bool.and_eq_true, decide_eq_true_eq]; omega

theorem literalLe_trans {a b c : Int} (hab : literalLe a b = true)
    (hbc : literalLe b c = true) : literalLe a c = true := by
  simp only [literalLe, Bool.or_eq_true, Bool.and_eq_true, decide_eq_true_eq] at *; omega

theorem pairwise_sorted (lits : List Int) :
    (lits.mergeSort literalLe).Pairwise fun a b => literalLe a b = true := by
  apply List.pairwise_mergeSort
  · exact fun _ _ _ => literalLe_trans
  · exact literalLe_total

def canonicalLiterals (lits : List Int) : List Int := sortUnique literalLe lits

theorem pairwise_canonicalLiterals (lits : List Int) :
    (canonicalLiterals lits).Pairwise fun a b => literalLe a b = true ∧ a ≠ b := by
  refine pairwise_dropRepeats (r := fun a b => literalLe a b = true)
    (fun a b hab hne => ⟨hab, hne⟩) (fun a b c hab hbc => ⟨literalLe_trans hab.1 hbc, ?_⟩) _
    (pairwise_sorted lits)
  rintro rfl
  have h := hab.1
  simp only [literalLe, Bool.or_eq_true, Bool.and_eq_true, decide_eq_true_eq] at h hbc
  exact hab.2 (by omega)

/-- Sorted literals without two neighbours of one variable have strictly increasing variables. -/
theorem pairwise_natAbs_lt {lits : List Int}
    (hsorted : lits.Pairwise fun a b => literalLe a b = true ∧ a ≠ b)
    (h : hasNeighboursOfOneVariable lits = false) :
    lits.Pairwise fun a b => a.natAbs < b.natAbs := by
  induction lits with
  | nil => exact .nil
  | cons a rest ih =>
    cases rest with
    | nil => exact List.pairwise_singleton _ _
    | cons b rest =>
      rw [hasNeighboursOfOneVariable, Bool.or_eq_false_iff] at h
      have htail := ih hsorted.tail h.2
      have hab : a.natAbs < b.natAbs := by
        have hle := (List.rel_of_pairwise_cons hsorted (List.mem_cons_self)).1
        have hne : a.natAbs ≠ b.natAbs := by simpa using h.1
        simp only [literalLe, Bool.or_eq_true, Bool.and_eq_true, decide_eq_true_eq] at hle
        omega
      refine List.Pairwise.cons (fun c hc => ?_) htail
      rcases List.mem_cons.1 hc with rfl | hc
      · exact hab
      · exact Nat.lt_trans hab (List.rel_of_pairwise_cons htail hc)

namespace Clause

/-- The clause with the given literals.  Order and repetition do not matter; the literal 0 and
opposing literals are refused, in this order. -/
def ofLiterals (lits : List Int) : Except ClauseError Clause :=
  if hzero : 0 ∈ lits then .error ⟨lits, .zeroLiteral⟩
  else if hboth : hasNeighboursOfOneVariable (canonicalLiterals lits) = true then
    .error ⟨canonicalLiterals lits, .bothPolarities⟩
  else .ok {
    literals := canonicalLiterals lits
    nonzero := by
      rintro lit hlit rfl
      exact hzero ((mem_sortUnique _ _ _).1 hlit)
    increasing := pairwise_natAbs_lt (pairwise_canonicalLiterals lits) (by simpa using hboth) }

def size (clause : Clause) : Nat := clause.literals.length

def isEmpty (clause : Clause) : Bool := clause.literals.isEmpty

def isUnit (clause : Clause) : Bool := clause.literals.length == 1

def contains (clause : Clause) (lit : Int) : Bool := clause.literals.contains lit

def maxVar (clause : Clause) : Nat := (clause.literals.map Int.natAbs).foldl max 0

end Clause

structure ClauseSet where
  clauses : Array Clause := #[]
  deriving Inhabited

namespace ClauseSet

def empty : ClauseSet := {}

def add (set : ClauseSet) (clause : Clause) : ClauseSet := ⟨set.clauses.push clause⟩

def push (set : ClauseSet) (lits : List Int) : Except ClauseError ClauseSet :=
  (Clause.ofLiterals lits).map set.add

def append (set other : ClauseSet) : ClauseSet := ⟨set.clauses ++ other.clauses⟩

def size (set : ClauseSet) : Nat := set.clauses.size

def isEmpty (set : ClauseSet) : Bool := set.clauses.isEmpty

def toList (set : ClauseSet) : List Clause := set.clauses.toList

def contains (set : ClauseSet) (clause : Clause) : Bool := set.toList.contains clause

def maxVar (set : ClauseSet) : Nat := (set.toList.map Clause.maxVar).foldl max 0

end ClauseSet

end BoundedPlanning
