import BoundedPlanning.Problem

namespace BoundedPlanning

namespace Problem

/-- Note that the action mentions the fact, unless it was the last one noted there. -/
def noteTouching (id : Nat) (touching : Array (Array Nat)) (fact : Nat) :
    Array (Array Nat) :=
  touching.modify fact fun ids => if ids.back? = some id then ids else ids.push id

def touchingActions (problem : Problem) : Array (Array Nat) :=
  problem.numberedActions.foldl
    (fun touching (action, id) => action.facts.foldl (noteTouching id) touching)
    (Array.replicate problem.factCount #[])

/-- The search for the partners of one action: for which action each other one was last looked at,
and the partners found. -/
structure PartnerSearch where
  seen : Array (Option Nat)
  partners : Array Nat

/-- Look at one candidate partner of action `i`; lower numbers and those already looked at are
skipped. -/
def considerPartner (actions : Array Action) (i : Nat) (action : Action)
    (search : PartnerSearch) (j : Nat) : PartnerSearch :=
  if i < j ∧ search.seen[j]? ≠ some (some i) then
    { seen := search.seen.setIfInBounds j (some i)
      partners :=
        match actions[j]? with
        | some other =>
          if action.interferesWith other then search.partners.push j else search.partners
        | none => search.partners }
  else search

/-- The partners of action `i` with higher numbers, in ascending order. -/
def partnersOf (actions : Array Action) (touching : Array (Array Nat))
    (seen : Array (Option Nat)) (i : Nat) (action : Action) :
    List Nat × Array (Option Nat) :=
  let search := action.facts.foldl
    (fun search fact => (touching[fact]?.getD #[]).foldl (considerPartner actions i action) search)
    ⟨seen, #[]⟩
  (search.partners.toList.mergeSort, search.seen)

/-- Every pair of interfering actions, the lower number first, in lexicographic order; candidates
are the actions that mention a common fact. -/
def interferingPairs (problem : Problem) : List (Nat × Nat) :=
  let actions := problem.actions.toArray
  let touching := problem.touchingActions
  (problem.numberedActions.foldl
    (fun (pairs, seen) (action, i) =>
      let (partners, seen) := partnersOf actions touching seen i action
      (pairs ++ (partners.map fun j => (i, j)).toArray, seen))
    ((#[] : Array (Nat × Nat)), Array.replicate actions.size none)).1.toList

end Problem

end BoundedPlanning
