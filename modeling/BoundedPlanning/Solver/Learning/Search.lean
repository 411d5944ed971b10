import BoundedPlanning.Solver.Learning.Analysis

namespace BoundedPlanning

/-- What a search under assumptions, given by their codes, finds. -/
inductive Finding (Premise : (Nat → Bool) → Prop) (assumptions : Array Nat)
  | satisfied
  | refuted (entails : Entails Premise (assumptions.map oppositeCode))

inductive Verdict (Premise : (Nat → Bool) → Prop) (assumptions : Array Nat)
  | found (finding : Finding Premise assumptions)
  | expired
  | undecided

namespace Learner

variable {P : (Nat → Bool) → Prop}

def nextUnknown (truth : Array Truth) (order : VariableOrder) : Nat → Option Nat × VariableOrder
  | 0 => (none, order)
  | fuel + 1 =>
    match order.next with
    | (none, order) => (none, order)
    | (some var, order) =>
      if (truth.getD (2 * var) .unknown).isOpen then (some var, order)
      else nextUnknown truth order fuel

def takeVariable (s : Learner P) : Option Nat × Learner P :=
  let order := s.order
  let s := { s with order := {} }
  let (var, order) := nextUnknown s.truth order (s.levels.size + 1)
  (var, { s with order := order })

inductive Assumed
  | settled
  | decided
  | opposed

/-- Pass over the assumptions that are true and decide the next one.  Each has a decision of its
own. -/
def assume (assumptions : Array Nat) : Nat → Learner P → Learner P × Assumed
  | 0, s => (s, .settled)
  | fuel + 1, s =>
    if s.depth < assumptions.size then
      let lit := assumptions.getD s.depth 0
      if s.isTrue lit then
        assume assumptions fuel { s with decisions := s.decisions.push s.trail.size }
      else if s.isFalse lit then (s, .opposed)
      else (s.decide lit, .decided)
    else (s, .settled)

/-- Settle so many more literals of the trail that clauses made true.  There are no decisions. -/
def settleNext : Nat → Learner P → Learner P
  | 0, s => s
  | count + 1, s =>
    let lit := s.trail.getD s.settled 0
    let reason := s.reasons.getD (lit / 2) 0
    let s := if reason = 0 then s else s.settle lit [s.numberOf reason]
    settleNext count { s with settled := s.settled + 1 }

/-- Conclude that one of the assumptions fails, all decisions being assumptions. -/
def oppose (s : Learner P) (assumptions : Array Nat) : Learner P × Option (Finding P assumptions) :=
  let implied := (s.trail.extract (s.decisions.getD 0 0)).filter fun lit =>
    s.reasons.getD (lit / 2) 0 != 0
  if h : s.ledger.proves (assumptions.map oppositeCode) (s.reasonNumbers implied) then
    (s, some (.refuted (Ledger.entails_of_proves h)))
  else ({ s with proved := false }, none)

/-- Search until so many conflicts have been met. -/
def searchUpTo (assumptions : Array Nat) :
    (fuel conflicts : Nat) → Learner P → Learner P × Option (Finding P assumptions)
  | 0, _, s => (s, none)
  | fuel + 1, conflicts, s =>
    let (s, conflict) := s.propagate
    let s := if s.depth = 0 then settleNext (s.trail.size - s.settled) s else s
    if conflict != 0 then
      if s.depth = 0 then (s.refute [s.numberOf conflict], none)
      else
        match conflicts with
        | 0 => (s.learn conflict, none)
        | conflicts + 1 => searchUpTo assumptions fuel conflicts (s.learn conflict)
    else
      match assume assumptions (assumptions.size + 1) s with
      | (s, .opposed) => s.oppose assumptions
      | (s, .decided) => searchUpTo assumptions fuel conflicts s
      | (s, .settled) =>
        match s.takeVariable with
        | (none, s) => (s, some .satisfied)
        | (some var, s) =>
          let lit := if s.phases.getD var false then 2 * var else 2 * var + 1
          searchUpTo assumptions fuel conflicts (s.decide lit)

/-! ### Forgetting -/

/-- Fold over the clauses from a reference on: over glue, number and literals of each. -/
def foldClauses {α : Type} (clauses : Array Nat) (step : α → Nat → Nat → Array Nat → α) :
    (fuel clause : Nat) → α → α
  | 0, _, value => value
  | fuel + 1, clause, value =>
    if clause < clauses.size then
      let size := clauses.getD clause 0
      let glue := clauses.getD (clause + 1) 0
      let number := clauses.getD (clause + 2) 0
      let lits := clauses.extract (clause + 3) (clause + 3 + size)
      foldClauses clauses step fuel (clause + 3 + size) (step value glue number lits)
    else value

/-- How useless a learned clause is. -/
def uselessness (glue : Nat) (lits : Array Nat) : Nat := glue * 1000 + lits.size

/-- Forget the more useless half of the learned clauses.  There are no decisions. -/
def forget (s : Learner P) : Learner P :=
  let clauses := s.clauses
  let grades := foldClauses clauses
    (fun grades glue _ lits => if glue = 0 then grades else grades.push (uselessness glue lits))
    clauses.size 1 (#[] : Array Nat)
  let limit := (grades.toList.mergeSort (fun a b => Nat.ble a b))[grades.size / 2]?.getD 0
  let cleared := { s with
    clauses := #[0]
    watches := s.watches.map fun _ => #[]
    learned := 0 }
  foldClauses clauses
    (fun s glue number lits =>
      if glue = 0 then s.addClause 0 number lits
      else if glue ≤ 2 ∨ uselessness glue lits ≤ limit then
        let s := s.addClause glue number lits
        { s with learned := s.learned + 1 }
      else s)
    clauses.size 1 cleared

/-! ### Starting anew -/

/-- The lengths of the searches between two new starts: 1, 1, 2, 1, 1, 2, 4, 1, … -/
structure Pace where
  index : Nat := 1
  length : Nat := 1

def Pace.next (pace : Pace) : Pace :=
  if pace.index % (2 * pace.length) = 0 then { pace with length := 2 * pace.length }
  else { index := pace.index + 1, length := 1 }

/-- Search until something is found, the time is up or the fuel is used up.  `expired` is asked at
every new start. -/
def searchPaced (s : Learner P) (assumptions : Array Nat) (expired : Learner P → Bool) :
    (fuel : Nat) → Pace → (limit : Nat) → Learner P × Verdict P assumptions
  | 0, _, _ => (s, .undecided)
  | fuel + 1, pace, limit =>
    if h : s.ledger.refuted then (s, .found (.refuted (Ledger.entails_of_refuted h _)))
    else if !s.proved then (s, .undecided)
    else if expired s then (s, .expired)
    else
      match searchUpTo assumptions 1000000000 (100 * pace.length) s with
      | (s, some finding) => (s, .found finding)
      | (s, none) =>
        let s := s.backTo 0
        if limit < s.learned then
          s.forget.searchPaced assumptions expired fuel pace.next (limit + limit / 10)
        else s.searchPaced assumptions expired fuel pace.next limit

/-- Search for a model of clauses, of which so many were given, and assumptions. -/
def search (s : Learner P) (assumptions : Array Nat) (expired : Learner P → Bool) (given : Nat) :
    Learner P × Verdict P assumptions :=
  s.searchPaced assumptions expired 1000000000 {} (2000 + given / 3)

end Learner

end BoundedPlanning
