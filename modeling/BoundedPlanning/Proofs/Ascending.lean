import BoundedPlanning.Ascending
import Mathlib.Data.List.Sort
import Mathlib.Order.Bounds.Defs

namespace BoundedPlanning

theorem pairwise_le_mergeSort (l : List Nat) : l.mergeSort.Pairwise (· ≤ ·) := by
  have hle : l.mergeSort.Pairwise fun a b => decide (a ≤ b) = true := by
    refine List.pairwise_mergeSort (fun a b c hab hbc => ?_) (fun a b => ?_) l
    · simp only [decide_eq_true_eq] at *
      omega
    · simp only [Bool.or_eq_true, decide_eq_true_eq]
      omega
  exact hle.imp of_decide_eq_true

theorem pairwise_lt_mergeSort {l : List Nat} (h : l.Nodup) : l.mergeSort.Pairwise (· < ·) := by
  have hnodup : l.mergeSort.Nodup := (List.mergeSort_perm _ _).nodup_iff.mpr h
  exact (pairwise_le_mergeSort l).imp₂ (fun _ _ => Nat.lt_of_le_of_ne) hnodup

/-- Two lists that ascend by the same key and have the same elements are equal. -/
theorem eq_of_pairwise_key_lt {α : Type} {key : α → Nat} {first second : List α}
    (hfirst : first.Pairwise fun a b => key a < key b)
    (hsecond : second.Pairwise fun a b => key a < key b)
    (h : ∀ a, a ∈ first ↔ a ∈ second) : first = second := by
  have : Std.Antisymm fun a b : α => key a < key b := ⟨fun a b hab hba => by omega⟩
  have : Std.Irrefl fun a b : α => key a < key b := ⟨fun a => Nat.lt_irrefl (key a)⟩
  exact hfirst.eq_of_mem_iff hsecond h

theorem eq_of_key_eq {α : Type} {key : α → Nat} {items : List α} {a b : α}
    (h : items.Pairwise fun a b => key a < key b) (ha : a ∈ items) (hb : b ∈ items)
    (hkey : key a = key b) : a = b := by
  have hforward : items.Pairwise fun a b => key a = key b → a = b :=
    h.imp fun hlt heq => absurd heq (Nat.ne_of_lt hlt)
  have hbackward : items.Pairwise fun a b => key b = key a → b = a :=
    h.imp fun hlt heq => absurd heq.symm (Nat.ne_of_lt hlt)
  exact List.Pairwise.forall_of_forall_of_flip (fun _ _ _ => rfl) hforward hbackward ha hb hkey

theorem ascending_eq_self {l : List Nat} (h : l.Pairwise (· < ·)) : ascending l = l :=
  eq_of_pairwise_key_lt (pairwise_ascending l) h fun a => mem_ascending a l

theorem ascending_congr {first second : List Nat} (h : ∀ a, a ∈ first ↔ a ∈ second) :
    ascending first = ascending second := by
  apply eq_of_pairwise_key_lt (pairwise_ascending first) (pairwise_ascending second)
  intro a
  rw [mem_ascending, mem_ascending, h]

/-- The first element with a property, in ascending order, is the least one. -/
theorem find?_ascending_eq_some_iff {p : Nat → Bool} {l : List Nat} {a : Nat} :
    (ascending l).find? p = some a ↔ IsLeast {b | b ∈ l ∧ p b = true} a := by
  have hascending := pairwise_ascending l
  rw [List.find?_eq_some_iff_append]
  constructor
  · rintro ⟨ha, before, after, hsplit, hbefore⟩
    rw [hsplit, List.pairwise_append, List.pairwise_cons] at hascending
    obtain ⟨-, ⟨hafter, -⟩, -⟩ := hascending
    refine ⟨⟨(mem_ascending a l).mp (by simp [hsplit]), ha⟩, ?_⟩
    rintro b ⟨hb, hpb⟩
    rw [← mem_ascending, hsplit, List.mem_append, List.mem_cons] at hb
    rcases hb with hb | rfl | hb
    · exact absurd hpb (by simpa using hbefore b hb)
    · exact le_rfl
    · exact (hafter b hb).le
  · rintro ⟨⟨hmem, ha⟩, hleast⟩
    obtain ⟨before, after, hsplit⟩ := List.append_of_mem ((mem_ascending a l).mpr hmem)
    rw [hsplit, List.pairwise_append] at hascending
    refine ⟨ha, before, after, hsplit, fun b hb => ?_⟩
    have hlt : b < a := hascending.2.2 b hb a List.mem_cons_self
    have hbl : b ∈ l := (mem_ascending b l).mp (by simp [hsplit, hb])
    rw [Bool.not_eq_true', Bool.eq_false_iff]
    intro hpb
    exact Nat.not_le_of_lt hlt (hleast ⟨hbl, hpb⟩)

theorem one_lt_length_of_ne {α : Type} {items : List α} {a b : α} (ha : a ∈ items) (hb : b ∈ items)
    (hne : a ≠ b) : 1 < items.length := by
  by_contra hshort
  match items, hshort with
  | [], _ => cases ha
  | [item], _ => exact hne ((List.mem_singleton.mp ha).trans (List.mem_singleton.mp hb).symm)
  | _ :: _ :: _, hshort => exact hshort (by simp)

end BoundedPlanning
