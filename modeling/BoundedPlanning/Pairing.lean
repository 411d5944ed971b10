/-!
An exact pairing of natural numbers: shell by shell around the square with corner `(0, 0)`, every
pair of numbers has its own key.  Keys are bounded, and so is everything they are computed from; a
pair whose key would not fit has none.
-/

namespace BoundedPlanning

/-- Keys are below this bound, the 64th power of 2. -/
def keyBound : Nat := 18446744073709551616

/-- The sum, if it is below the bound of keys. -/
def boundedSum? (a b : Nat) : Option Nat := if a + b < keyBound then some (a + b) else none

def boundedProduct? (a b : Nat) : Option Nat := if a * b < keyBound then some (a * b) else none

/-- The largest number whose square is at most `n`. -/
def isqrt (n : Nat) : Nat :=
  if n < 2 then n
  else
    let half := 2 * isqrt (n / 4)
    if (half + 1) * (half + 1) ≤ n then half + 1 else half
termination_by n

/-- The key of a pair, if no step of its computation exceeds the bound. -/
def pair (x y : Nat) : Option Nat :=
  if x < y then (boundedProduct? y y).bind fun square => boundedSum? square x
  else
    (boundedProduct? x x).bind fun square =>
      (boundedSum? square x).bind fun corner => boundedSum? corner y

/-- The pair with the given key. -/
def unpair (key : Nat) : Nat × Nat :=
  let root := isqrt key
  let rest := key - root * root
  if rest < root then (rest, root) else (root, rest - root)

end BoundedPlanning
