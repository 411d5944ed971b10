import BoundedPlanning.Solver.Basic
import Std.Data.HashMap

namespace BoundedPlanning

structure Intake where
  limits : SolverLimits
  reserved : Nat := 0
  clauseCount : Nat := 0
  /-- The values that the accepted unit clauses ask for. -/
  units : Std.HashMap Nat Bool := ∅

namespace Intake

def init (limits : SolverLimits) : Intake := { limits := limits }

def checkReserve (intake : Intake) (maxVar : Nat) : Except SolverError Unit :=
  if intake.limits.maxVars < maxVar then
    .error (.limitExceeded .variables maxVar intake.limits.maxVars)
  else .ok ()

/-- Announce variables up to the given one; the ceiling never falls. -/
def reserve (intake : Intake) (maxVar : Nat) : Intake :=
  { intake with reserved := max intake.reserved maxVar }

def checkLiterals (intake : Intake) : List Int → Except SolverError Unit
  | [] => .ok ()
  | lit :: rest =>
    if lit = 0 then .error .zeroLiteral
    else if intake.reserved < lit.natAbs then
      .error (.variableOutOfRange lit.natAbs intake.reserved)
    else intake.checkLiterals rest

/-- Whether an accepted unit clause asks for the opposite of the literal. -/
def opposes (intake : Intake) (lit : Int) : Bool :=
  intake.units[lit.natAbs]? == some (!decide (0 < lit))

/-- A clause may be accepted; otherwise the first of these offences is named: a bad literal, no
literals, too many clauses, a unit clause that opposes an earlier one. -/
def checkClause (intake : Intake) (lits : List Int) : Except SolverError Unit := do
  intake.checkLiterals lits
  match lits with
  | [] => throw (.contradiction .emptyClause)
  | lit :: rest =>
    if intake.limits.maxClauses ≤ intake.clauseCount then
      throw (.limitExceeded .clauses (intake.clauseCount + 1) intake.limits.maxClauses)
    if rest.isEmpty && intake.opposes lit then throw (.contradiction (.opposingUnit lit))

def accept (intake : Intake) (lits : List Int) : Intake :=
  match lits with
  | [lit] =>
    { intake with
      clauseCount := intake.clauseCount + 1
      units := intake.units.insert lit.natAbs (decide (0 < lit)) }
  | _ => { intake with clauseCount := intake.clauseCount + 1 }

end Intake

end BoundedPlanning
