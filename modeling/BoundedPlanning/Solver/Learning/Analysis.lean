import BoundedPlanning.Solver.Learning.Propagation

/-!
Learning from conflicts.  A clause that became false is resolved with the reasons of its literals,
the latest one first, until one literal of the last decision is left.  The clause that results
follows from the others, and would have made that literal true at an earlier decision.
-/

namespace BoundedPlanning

/-- A conflict in the course of being analysed. -/
structure Conflict (Premise : (Nat → Bool) → Prop) where
  learner : Learner Premise
  /-- How many marked variables became known with the last decision and are to be resolved. -/
  pending : Nat := 0
  earlier : Array Nat := #[]
  /-- The numbers of the clauses that were resolved, the latest first. -/
  hints : List Nat := []

variable {P : (Nat → Bool) → Prop}

namespace Conflict

/-- Mark the variables of so many literals of a clause, except that of the literal it made true. -/
def mark (implied : Nat) : Nat → (place : Nat) → Conflict P → Conflict P
  | 0, _, conflict => conflict
  | count + 1, place, conflict =>
    let s := conflict.learner
    let lit := s.clauses.getD place 0
    let level := s.levelOf lit
    if lit == implied || s.marks.getD (lit / 2) false || level == 0 then
      mark implied count (place + 1) conflict
    else
      let isLast := level == s.depth
      let s := { s with
        order := s.order.bump (lit / 2)
        marks := replaceAt s.marks (lit / 2) true }
      mark implied count (place + 1) <|
        if isLast then { conflict with learner := s, pending := conflict.pending + 1 }
        else { conflict with learner := s, earlier := conflict.earlier.push lit }

def markClause (implied clause : Nat) (conflict : Conflict P) : Conflict P :=
  let size := conflict.learner.clauses.getD clause 0
  let number := conflict.learner.numberOf clause
  { conflict with hints := number :: conflict.hints }.mark implied size (clause + 3)

/-- Resolve along the first so many literals of the trail, from the last to the first.  The answer
is the literal that is left of the last decision. -/
def resolve : Nat → Conflict P → Conflict P × Nat
  | 0, conflict => (conflict, 0)
  | position + 1, conflict =>
    let s := conflict.learner
    let lit := s.trail.getD position 0
    if s.marks.getD (lit / 2) false then
      let reason := s.reasons.getD (lit / 2) 0
      let conflict := { conflict with
        learner := { s with marks := replaceAt s.marks (lit / 2) false }
        pending := conflict.pending - 1 }
      if conflict.pending = 0 then (conflict, lit)
      else resolve position (conflict.markClause lit reason)
    else resolve position conflict

end Conflict

namespace Learner

/-- Whether all of so many literals of a clause are marked or always false, except the given
one. -/
def allMarked (s : Learner P) (implied place : Nat) : Nat → Bool
  | 0 => true
  | count + 1 =>
    let lit := s.clauses.getD place 0
    (lit == implied || s.marks.getD (lit / 2) false || s.levelOf lit == 0) &&
      s.allMarked implied (place + 1) count

/-- Whether a literal can be left out of a learned clause, since it is false whenever the other
marked ones are. -/
def isRedundant (s : Learner P) (lit : Nat) : Bool :=
  let reason := s.reasons.getD (lit / 2) 0
  reason != 0 && s.allMarked (oppositeCode lit) (reason + 3) (s.clauses.getD reason 0)

/-- The numbers of the clauses that made literals false, in the order in which they did. -/
def reasonNumbers (s : Learner P) (lits : Array Nat) : List Nat :=
  let placeOf := fun lit => s.places.getD (lit / 2) 0
  let earliestFirst := lits.toList.mergeSort fun a b => Nat.ble (placeOf a) (placeOf b)
  earliestFirst.map fun lit => s.numberOf (s.reasons.getD (lit / 2) 0)

def unmark (s : Learner P) (lits : Array Nat) : Learner P :=
  { s with marks := lits.foldl (fun marks lit => replaceAt marks (lit / 2) false) s.marks }

/-- How many different decisions the literals depend on. -/
def glueOf (s : Learner P) (lits : Array Nat) : Nat :=
  (lits.foldl
    (fun (seen : Array Nat) lit =>
      let level := s.levelOf lit
      if seen.contains level then seen else seen.push level) #[]).size

def latestFirst (s : Learner P) (lits : Array Nat) : Array Nat :=
  let latest := (List.range lits.size).foldl
    (fun best i => if s.levelOf (lits.getD best 0) < s.levelOf (lits.getD i 0) then i else best) 0
  lits.swapIfInBounds 0 latest

/-- Learn a clause from one that became false, take back the decisions it makes needless and make
its first literal true. -/
def learn (s : Learner P) (clause : Nat) : Learner P :=
  let (conflict, last) := (({ learner := s } : Conflict P).markClause 0 clause).resolve s.trail.size
  let s := conflict.learner
  let earlier := s.latestFirst (conflict.earlier.filter fun lit => !s.isRedundant lit)
  let hints := s.reasonNumbers (conflict.earlier.filter s.isRedundant) ++ conflict.hints
  let lits := #[oppositeCode last] ++ earlier
  let glue := s.glueOf lits
  let s := s.unmark conflict.earlier
  let s := { s with order := s.order.age }
  if earlier.isEmpty then
    ((s.backTo 0).settle (oppositeCode last) hints).assign (oppositeCode last) 0
  else
    let number := s.ledger.clauses.size
    let s := s.enter lits hints
    let s := s.backTo (s.levelOf (earlier.getD 0 0))
    let s := s.store glue number lits
    let reason := s.lastClause lits.size
    { s with learned := s.learned + 1 }.assign (oppositeCode last) reason

end Learner

end BoundedPlanning
