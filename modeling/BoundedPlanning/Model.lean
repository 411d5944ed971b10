import BoundedPlanning.Clause
import BoundedPlanning.Text.Digits

namespace BoundedPlanning

/-- The values of the variables 1, 2, 3, … in order. -/
structure Model where
  values : Array Bool
  deriving DecidableEq, Repr, Inhabited

namespace Model

/-- Give a variable a value; variables between the highest one and it become false. -/
def assign (model : Model) (var : Nat) (value : Bool) : Model :=
  let padded := model.values ++ Array.replicate (var - model.values.size) false
  ⟨padded.setIfInBounds (var - 1) value⟩

/-- The model in which each literal holds unless a later one of the same variable opposes it;
zeros are skipped, and variables that are not mentioned are false. -/
def ofLiterals (lits : List Int) : Model :=
  lits.foldl
    (fun model lit => if lit = 0 then model else model.assign lit.natAbs (decide (0 < lit)))
    ⟨#[]⟩

def maxVar (model : Model) : Nat := model.values.size

def value? (model : Model) (var : Nat) : Option Bool :=
  if var = 0 then none else model.values[var - 1]?

def satisfies (model : Model) (lit : Int) : Bool :=
  model.value? lit.natAbs == some (decide (0 < lit))

def trueVars (model : Model) : List Nat :=
  ((List.range model.maxVar).map (· + 1)).filter fun var => model.value? var == some true

/-- The true variables as they are reported.  Their numbers have 32 bits: above the last of these they
start over. -/
def trueNumbers (model : Model) : List Nat := model.trueVars.map (· % bound32)

def debugText (model : Model) : String :=
  let vars := String.intercalate ", " (model.trueNumbers.map toString)
  "Model \x7b max_var: " ++ toString (model.maxVar % bound32) ++ ", true_vars: [" ++ vars ++ "] \x7d"

end Model

end BoundedPlanning
