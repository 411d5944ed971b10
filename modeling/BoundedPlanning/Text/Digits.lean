namespace BoundedPlanning

/-- Numbers of 32 bits are below this bound. -/
def bound32 : Nat := 4294967296

/-- Numbers of 64 bits are below this bound. -/
def bound64 : Nat := 18446744073709551616

def hexDigit? (c : Char) : Option Nat :=
  if '0' ≤ c ∧ c ≤ '9' then some (c.toNat - '0'.toNat)
  else if 'a' ≤ c ∧ c ≤ 'f' then some (c.toNat - 'a'.toNat + 10)
  else if 'A' ≤ c ∧ c ≤ 'F' then some (c.toNat - 'A'.toNat + 10)
  else none

/-- The number that digits write in a base up to 16; there must be digits, and of that base. -/
def numberInBase? (base : Nat) (digits : List Char) : Option Nat :=
  if digits.isEmpty then none
  else
    digits.foldlM
      (fun value c => (hexDigit? c).bind fun digit =>
        if digit < base then some (value * base + digit) else none) 0

def decimalValue (digits : List Char) : Nat :=
  digits.foldl (fun value c => value * 10 + (c.toNat - '0'.toNat)) 0

end BoundedPlanning
