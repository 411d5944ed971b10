namespace BoundedPlanning

/-- Keep the first element of every run of equal elements. -/
def dropRepeats {α : Type} [DecidableEq α] : List α → List α
  | [] => []
  | [a] => [a]
  | a :: b :: rest => if a = b then dropRepeats (b :: rest) else a :: dropRepeats (b :: rest)

theorem mem_dropRepeats {α : Type} [DecidableEq α] (x : α) (l : List α) :
    x ∈ dropRepeats l ↔ x ∈ l := by
  fun_induction dropRepeats l with
  | case1 => simp
  | case2 => simp
  | case3 a rest ih => rw [ih]; simp
  | case4 a b rest hab ih => rw [List.mem_cons, ih, List.mem_cons (a := x) (b := a)]

/-- Dropping repeats from a list sorted by a total order leaves it strictly sorted. -/
theorem pairwise_dropRepeats {α : Type} [DecidableEq α] {r s : α → α → Prop}
    (hrs : ∀ a b, r a b → a ≠ b → s a b) (trans : ∀ a b c, s a b → r b c → s a c)
    (l : List α) (h : l.Pairwise r) : (dropRepeats l).Pairwise s := by
  fun_induction dropRepeats l with
  | case1 => exact .nil
  | case2 a => exact List.pairwise_singleton _ _
  | case3 a rest ih => exact ih h.tail
  | case4 a b rest hab ih =>
    refine List.Pairwise.cons (fun c hc => ?_) (ih h.tail)
    have hb : s a b := hrs a b (List.rel_of_pairwise_cons h (by simp)) hab
    rcases List.mem_cons.1 ((mem_dropRepeats c _).1 hc) with rfl | hrest
    · exact hb
    · exact trans a b c hb (List.rel_of_pairwise_cons h.tail hrest)

/-- Sort the list by `le` and keep one of every run of equal elements. -/
def sortUnique {α : Type} [DecidableEq α] (le : α → α → Bool) (l : List α) : List α :=
  dropRepeats (l.mergeSort le)

@[simp] theorem mem_sortUnique {α : Type} [DecidableEq α] (le : α → α → Bool) (x : α)
    (l : List α) : x ∈ sortUnique le l ↔ x ∈ l := by
  rw [sortUnique, mem_dropRepeats, List.mem_mergeSort]

def ascending (l : List Nat) : List Nat := sortUnique (fun a b => decide (a ≤ b)) l

@[simp] theorem mem_ascending (x : Nat) (l : List Nat) : x ∈ ascending l ↔ x ∈ l :=
  mem_sortUnique _ x l

theorem pairwise_ascending (l : List Nat) : (ascending l).Pairwise (· < ·) := by
  refine pairwise_dropRepeats (r := fun a b => decide (a ≤ b) = true)
    (fun a b hab hne => ?_) (fun a b c hab hbc => ?_) _ ?_
  · have := of_decide_eq_true hab; omega
  · have := of_decide_eq_true hbc; omega
  · refine List.pairwise_mergeSort (fun a b c hab hbc => ?_) (fun a b => ?_) l
    · simp only [decide_eq_true_eq] at *; omega
    · simp only [Bool.or_eq_true, decide_eq_true_eq]; omega

end BoundedPlanning
