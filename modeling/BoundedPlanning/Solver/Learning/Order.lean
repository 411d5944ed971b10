/-!
Variables in the order in which a search tries them.  A variable becomes more active whenever a
conflict involves it, and later conflicts count more than earlier ones.  The variables that wait
to be tried stand in a heap, the most active one first.
-/

namespace BoundedPlanning

/-- Replace the entry at a position, if there is one. -/
@[noinline]
def replaceAt {α : Type} (entries : Array α) (i : Nat) (value : α) : Array α :=
  entries.setIfInBounds i value

structure VariableOrder where
  activity : Array Nat := #[]
  weight : Nat := 1000
  /-- The waiting variables: none is more active than the one at half its position. -/
  heap : Array Nat := #[]
  /-- One more than the position of each variable in the heap, 0 for those that do not wait. -/
  positions : Array Nat := #[]

namespace VariableOrder

def activityAt (order : VariableOrder) (i : Nat) : Nat :=
  order.activity.getD (order.heap.getD i 0) 0

def exchange (order : VariableOrder) (i j : Nat) : VariableOrder :=
  let first := order.heap.getD i 0
  let second := order.heap.getD j 0
  { order with
    heap := order.heap.swapIfInBounds i j
    positions := replaceAt (replaceAt order.positions first (j + 1)) second (i + 1) }

theorem size_heap_exchange (order : VariableOrder) (i j : Nat) :
    (order.exchange i j).heap.size = order.heap.size :=
  Array.size_swapIfInBounds

def raise (order : VariableOrder) (i : Nat) : VariableOrder :=
  if i = 0 then order
  else if order.activityAt ((i - 1) / 2) < order.activityAt i then
    (order.exchange i ((i - 1) / 2)).raise ((i - 1) / 2)
  else order
termination_by i
decreasing_by omega

def moreActiveBelow (order : VariableOrder) (i : Nat) : Nat :=
  if order.activityAt (2 * i + 1) < order.activityAt (2 * i + 2) then 2 * i + 2 else 2 * i + 1

theorem lt_moreActiveBelow (order : VariableOrder) (i : Nat) : i < order.moreActiveBelow i := by
  unfold moreActiveBelow
  split <;> omega

def lower (order : VariableOrder) (i : Nat) : VariableOrder :=
  if order.moreActiveBelow i < order.heap.size ∧
      order.activityAt i < order.activityAt (order.moreActiveBelow i) then
    (order.exchange i (order.moreActiveBelow i)).lower (order.moreActiveBelow i)
  else order
termination_by order.heap.size - i
decreasing_by
  rename_i h
  have := lt_moreActiveBelow order i
  rw [size_heap_exchange]
  omega

def insert (order : VariableOrder) (var : Nat) : VariableOrder :=
  if order.positions.getD var 0 = 0 then
    let last := order.heap.size
    { order with
      heap := order.heap.push var
      positions := replaceAt order.positions var (last + 1) }.raise last
  else order

def next (order : VariableOrder) : Option Nat × VariableOrder :=
  if order.heap.isEmpty then (none, order)
  else
    let var := order.heap.getD 0 0
    let moved := order.exchange 0 (order.heap.size - 1)
    (some var, { moved with
      heap := moved.heap.pop
      positions := replaceAt moved.positions var 0 }.lower 0)

def add (order : VariableOrder) : VariableOrder :=
  let var := order.activity.size
  { order with activity := order.activity.push 0, positions := order.positions.push 0 }.insert var

/-- Make all numbers smaller before they become large. -/
def rescale (order : VariableOrder) : VariableOrder :=
  { order with
    activity := order.activity.map (· / 100000)
    weight := order.weight / 100000 + 1000 }

def bump (order : VariableOrder) (var : Nat) : VariableOrder :=
  let activity := order.activity.getD var 0 + order.weight
  let order := { order with activity := replaceAt order.activity var activity }
  let order := if 1000000000 < activity then order.rescale else order
  match order.positions.getD var 0 with
  | 0 => order
  | i + 1 => order.raise i

def age (order : VariableOrder) : VariableOrder :=
  { order with weight := order.weight * 20 / 19 }

end VariableOrder

end BoundedPlanning
