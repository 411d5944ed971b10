import BoundedPlanning.Solver.Learning.Basic

namespace BoundedPlanning.Learner

variable {P : (Nat → Bool) → Prop}

/-- The watched literal of a clause that is not the given one. -/
def otherWatched (s : Learner P) (clause lit : Nat) : Nat :=
  let first := s.clauses.getD (clause + 3) 0
  if first == lit then s.clauses.getD (clause + 4) 0 else first

/-- The place of the first literal that is not false, among so many from the given place on;
0 if all are false. -/
def findFrom (s : Learner P) (place : Nat) : Nat → Nat
  | 0 => 0
  | count + 1 =>
    if s.isFalse (s.clauses.getD place 0) then s.findFrom (place + 1) count else place

/-- The place of a literal of a clause that is not watched and not false, 0 if there is none. -/
def findWatch (s : Learner P) (clause : Nat) : Nat :=
  s.findFrom (clause + 5) (s.clauses.getD clause 0 - 2)

def moveWatch (s : Learner P) (lit clause other place : Nat) : Learner P :=
  let next := s.clauses.getD place 0
  { s with
    clauses := replaceAt (replaceAt (replaceAt s.clauses (clause + 3) other) (clause + 4) next)
      place lit
    watches := addWatch s.watches next clause other }

def imply (s : Learner P) (lit clause other : Nat) : Learner P :=
  { s with
    clauses := replaceAt (replaceAt s.clauses (clause + 3) other) (clause + 4) lit }.assign
    other clause

def isSettled (s : Learner P) : Bool := Nat.ble s.trail.size s.propagated

def nextFalse (s : Learner P) : Nat := oppositeCode (s.trail.getD s.propagated 0)

def takeWatches (s : Learner P) (lit : Nat) : Array Nat × Learner P :=
  let list := s.watches.getD lit #[]
  (list, { s with
    propagated := s.propagated + 1
    watches := replaceAt s.watches lit #[] })

def putWatches (s : Learner P) (lit : Nat) (list : Array Nat) : Learner P :=
  { s with watches := replaceAt s.watches lit list }

def keepWatch (list : Array Nat) (kept clause other : Nat) : Array Nat :=
  replaceAt (replaceAt list kept clause) (kept + 1) other

def keepWatches : Nat → (i kept : Nat) → Array Nat → Array Nat
  | 0, _, kept, list => list.shrink kept
  | count + 1, i, kept, list =>
    keepWatches count (i + 2) (kept + 2) (keepWatch list kept (list.getD i 0) (list.getD (i + 1) 0))

/-- Go through the watches of a literal that became false, so many from position `i` on, and keep
those that stay.  The answer is the clause that became false, or 0. -/
def visit (lit : Nat) : Nat → (i kept : Nat) → Array Nat → Learner P → Learner P × Nat
  | 0, _, kept, list, s => (s.putWatches lit (list.shrink kept), 0)
  | count + 1, i, kept, list, s =>
    let clause := list.getD i 0
    let blocker := list.getD (i + 1) 0
    if s.isTrue blocker then
      visit lit count (i + 2) (kept + 2) (keepWatch list kept clause blocker) s
    else
      let other := s.otherWatched clause lit
      if s.isTrue other then
        visit lit count (i + 2) (kept + 2) (keepWatch list kept clause other) s
      else
        let place := s.findWatch clause
        if place != 0 then
          visit lit count (i + 2) kept list (s.moveWatch lit clause other place)
        else if s.isFalse other then (s.putWatches lit (keepWatches (count + 1) i kept list), clause)
        else
          visit lit count (i + 2) (kept + 2) (keepWatch list kept clause other)
            (s.imply lit clause other)

/-- Propagate so many literals of the trail.  The answer is the clause that became false, or 0. -/
def propagateFirst : Nat → Learner P → Learner P × Nat
  | 0, s => (s, 0)
  | count + 1, s =>
    if s.isSettled then (s, 0)
    else
      let lit := s.nextFalse
      let (list, s) := s.takeWatches lit
      let (s, conflict) := visit lit (list.size / 2) 0 0 list s
      if conflict != 0 then (s, conflict) else propagateFirst count s

/-- Propagate all literals of the trail; there is one for each variable at most. -/
def propagate (s : Learner P) : Learner P × Nat := s.propagateFirst s.levels.size

end BoundedPlanning.Learner
