import BoundedPlanning.Model
import BoundedPlanning.Solver.Assignment
import BoundedPlanning.Solver.Learning.Ledger

/-!
What a search with clause learning works on: the clauses, what is known of the literals, and the
trail of what became true in which order.  The clauses stand one behind the other in one array, each
as its size, its glue, its number in the ledger and its literals; the place of its size is the
clause's reference.  The glue is 0 for the clauses that were given; that of a learned clause is
small if few decisions had to be wrong for it.

None of this is relied on: what is found out is entered in the ledger with its proof, and a search
that cannot do so gives up.

A clause is watched through its first two literals: it is looked at again when one of them becomes
false.  The watches of a literal are references, each followed by another literal of the clause.
-/

namespace BoundedPlanning

structure Learner (Premise : (Nat → Bool) → Prop) where
  ledger : Ledger Premise := {}
  /-- Whether all that was found out could be entered in the ledger. -/
  proved : Bool := true
  order : VariableOrder := {}
  truth : Array Truth := #[]
  /-- Whether each variable was true when it was last known. -/
  phases : Array Bool := #[]
  /-- How many decisions had been made when each variable became known. -/
  levels : Array Nat := #[]
  /-- The clause that made each variable known, 0 if none did. -/
  reasons : Array Nat := #[]
  /-- How long the trail was when each variable became known. -/
  places : Array Nat := #[]
  /-- The literals that are true, in the order in which they became true. -/
  trail : Array Nat := #[]
  /-- How many literals of the trail have been propagated. -/
  propagated : Nat := 0
  /-- How many literals of the trail have been settled in the ledger. -/
  settled : Nat := 0
  /-- How long the trail was before each decision. -/
  decisions : Array Nat := #[]
  /-- The clauses; no clause has the reference 0. -/
  clauses : Array Nat := #[0]
  watches : Array (Array Nat) := #[]
  learned : Nat := 0
  marks : Array Bool := #[]

namespace Learner

variable {P : (Nat → Bool) → Prop}

def isTrue (s : Learner P) (lit : Nat) : Bool := (s.truth.getD lit .unknown).holds

def isFalse (s : Learner P) (lit : Nat) : Bool := (s.truth.getD lit .unknown).fails

def depth (s : Learner P) : Nat := s.decisions.size

def levelOf (s : Learner P) (lit : Nat) : Nat := s.levels.getD (lit / 2) 0

def addVariable (s : Learner P) : Learner P :=
  { s with
    ledger := s.ledger.addVariable
    order := s.order.add
    truth := (s.truth.push .unknown).push .unknown
    phases := s.phases.push false
    levels := s.levels.push 0
    reasons := s.reasons.push 0
    places := s.places.push 0
    watches := (s.watches.push #[]).push #[]
    marks := s.marks.push false }

def addVariables (s : Learner P) : Nat → Learner P
  | 0 => s
  | count + 1 => s.addVariable.addVariables count

def cover (s : Learner P) (var : Nat) : Learner P := s.addVariables (var + 1 - s.levels.size)

def assign (s : Learner P) (lit reason : Nat) : Learner P :=
  { s with
    truth := replaceAt (replaceAt s.truth lit .isTrue) (oppositeCode lit) .isFalse
    levels := replaceAt s.levels (lit / 2) s.decisions.size
    reasons := replaceAt s.reasons (lit / 2) reason
    places := replaceAt s.places (lit / 2) s.trail.size
    trail := s.trail.push lit }

def unassign (s : Learner P) : Nat → Learner P
  | 0 => s
  | count + 1 =>
    let lit := s.trail.back?.getD 0
    { s with
      order := s.order.insert (lit / 2)
      truth := replaceAt (replaceAt s.truth lit .unknown) (oppositeCode lit) .unknown
      phases := replaceAt s.phases (lit / 2) (lit % 2 == 0)
      trail := s.trail.pop }.unassign count

def backTo (s : Learner P) (depth : Nat) : Learner P :=
  if depth < s.decisions.size then
    let kept := s.decisions.getD depth 0
    { s.unassign (s.trail.size - kept) with
      propagated := kept
      decisions := s.decisions.shrink depth }
  else s

def decide (s : Learner P) (lit : Nat) : Learner P :=
  { s with decisions := s.decisions.push s.trail.size }.assign lit 0

/-- Add a clause to the watches of a literal. -/
@[noinline]
def addWatch (watches : Array (Array Nat)) (lit clause other : Nat) : Array (Array Nat) :=
  watches.modify lit fun list => (list.push clause).push other

/-- Store a clause, given with its number in the ledger. -/
def store (s : Learner P) (glue number : Nat) (lits : Array Nat) : Learner P :=
  let clause := s.clauses.size
  let first := lits.getD 0 0
  let second := lits.getD 1 0
  { s with
    clauses := (((s.clauses.push lits.size).push glue).push number) ++ lits
    watches := addWatch (addWatch s.watches first clause second) second clause first }

/-- The reference of the clause that was stored last, which has so many literals. -/
def lastClause (s : Learner P) (size : Nat) : Nat := s.clauses.size - (size + 3)

def numberOf (s : Learner P) (clause : Nat) : Nat := s.clauses.getD (clause + 2) 0

/-- Enter in the ledger that a literal always holds, as clauses with the given numbers show. -/
def settle (s : Learner P) (lit : Nat) (hints : List Nat) : Learner P :=
  if h : s.ledger.proves #[lit] hints then
    { s with ledger := s.ledger.settle lit (Ledger.entails_of_proves h) }
  else { s with proved := false }

/-- Enter a clause in the ledger, which follows as those with the given numbers show. -/
def enter (s : Learner P) (lits : Array Nat) (hints : List Nat) : Learner P :=
  if h : s.ledger.proves lits hints then
    { s with ledger := s.ledger.add lits (Ledger.entails_of_proves h) }
  else { s with proved := false }

def refute (s : Learner P) (hints : List Nat) : Learner P :=
  if h : s.ledger.proves #[] hints then
    { s with ledger := s.ledger.refute (Ledger.entails_of_proves h) }
  else { s with proved := false }

/-- Add a clause while there are no decisions.  Literals that are known to be false are left out,
and so is a clause with one that is known to be true. -/
def addClause (s : Learner P) (glue number : Nat) (lits : Array Nat) : Learner P :=
  if lits.any s.isTrue then s
  else
    let lits := lits.filter fun lit => !s.isFalse lit
    if lits.isEmpty then s.refute [number]
    else if lits.size = 1 then (s.settle (lits.getD 0 0) [number]).assign (lits.getD 0 0) 0
    else s.store glue number lits

/-- The codes of the literals of a clause, each once; `none` if opposite literals are among
them. -/
def codes? (clause : List Int) : Option (Array Nat) :=
  let lits := canonicalLiterals clause
  if hasNeighboursOfOneVariable lits then none else some (lits.map litCode).toArray

theorem litCode_mem_codes? {clause : List Int} {codes : Array Nat} (h : codes? clause = some codes)
    {lit : Int} (hlit : lit ∈ clause) : litCode lit ∈ codes := by
  dsimp only [codes?] at h
  split at h
  · cases h
  · cases h
    rw [List.mem_toArray]
    exact List.mem_map_of_mem ((mem_sortUnique _ _ _).mpr hlit)

/-- Add a clause that follows from the premise. -/
def addGiven (s : Learner P) (clause : List Int)
    (h : ∀ truth, P truth → ∃ lit ∈ clause, CodeHolds truth (litCode lit)) : Learner P :=
  match hcodes : codes? clause with
  | some codes =>
    let number := s.ledger.clauses.size
    { s with
      ledger := s.ledger.add codes <| by
        intro truth htruth
        obtain ⟨lit, hlit, hholds⟩ := h truth htruth
        exact ⟨_, litCode_mem_codes? hcodes hlit, hholds⟩ }.addClause 0 number codes
  | none => s

def strengthen {Q : (Nat → Bool) → Prop} (s : Learner P) (h : ∀ truth, Q truth → P truth) :
    Learner Q :=
  { s with ledger := s.ledger.strengthen h }

def model (s : Learner P) (maxVar : Nat) : Model :=
  ⟨(Array.range maxVar).map fun i => s.isTrue (2 * (i + 1))⟩

def assignment (s : Learner P) (maxVar : Nat) : Assignment :=
  ⟨(Array.range (maxVar + 1)).map fun var => s.truth.getD (2 * var) .unknown⟩

end Learner

end BoundedPlanning
