import BoundedPlanning.Clause

/-!
A ladder of clauses that lets at most one of `n` variables be true.  Between neighbouring variables
stands one auxiliary; an auxiliary is true if a variable above it is chosen, and a chosen variable
makes the auxiliaries below it true and all others false.
-/

namespace BoundedPlanning

def ladderAuxCount (n : Nat) : Nat := n - 1

def ladderClauseCount (n : Nat) : Nat := 3 * n - 4

/-- The steps of the ladder: an auxiliary that is true makes the one before it true. -/
def ladderSteps (n firstAux : Nat) : List (List Int) :=
  (List.range (n - 2)).map fun i =>
    [literal (firstAux + i + 1) false, literal (firstAux + i) true]

/-- The clauses of the variable at position `i` of `n`: it makes the auxiliary below it true and
the one above it false. -/
def ladderRung (n firstAux i var : Nat) : List (List Int) :=
  (if 0 < i then [[literal var false, literal (firstAux + i - 1) true]] else []) ++
    (if i + 1 < n then [[literal var false, literal (firstAux + i) false]] else [])

/-- The clauses of the ladder over the variables, whose auxiliaries are numbered from `firstAux`. -/
def ladder (vars : List Nat) (firstAux : Nat) : List (List Int) :=
  if vars.length < 2 then []
  else
    ladderSteps vars.length firstAux ++
      vars.zipIdx.flatMap fun (var, i) => ladderRung vars.length firstAux i var

end BoundedPlanning
