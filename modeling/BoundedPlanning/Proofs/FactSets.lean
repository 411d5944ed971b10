import BoundedPlanning.Proofs.Execution
import BoundedPlanning.Proofs.Interference

namespace BoundedPlanning

theorem State.setAll_congr {facts others : List Nat} (h : ∀ fact, fact ∈ facts ↔ fact ∈ others)
    (value : Bool) (state : State) : state.setAll facts value = state.setAll others value := by
  apply ext_holds
  · rw [size_setAll, size_setAll]
  · intro fact _
    rw [holds_setAll, holds_setAll]
    simp only [h]

/-- The actions have one name, and each list of the one has the facts of that of the other. -/
structure Action.SameFacts (action other : Action) : Prop where
  name_eq : action.name = other.name
  pre : ∀ fact, fact ∈ action.pre ↔ fact ∈ other.pre
  preNeg : ∀ fact, fact ∈ action.preNeg ↔ fact ∈ other.preNeg
  add : ∀ fact, fact ∈ action.add ↔ fact ∈ other.add
  del : ∀ fact, fact ∈ action.del ↔ fact ∈ other.del

namespace Action

theorem sameFacts_normalize (action : Action) : action.normalize.SameFacts action where
  name_eq := rfl
  pre fact := mem_ascending fact action.pre
  preNeg fact := mem_ascending fact action.preNeg
  add fact := mem_ascending fact action.add
  del fact := mem_ascending fact action.del

namespace SameFacts

variable {action other : Action}

theorem normalize_eq (h : action.SameFacts other) : action.normalize = other.normalize := by
  rw [normalize, normalize, h.name_eq, ascending_congr h.pre, ascending_congr h.preNeg,
    ascending_congr h.add, ascending_congr h.del]

theorem mem_facts_iff (h : action.SameFacts other) (fact : Nat) :
    fact ∈ action.facts ↔ fact ∈ other.facts := by
  rw [Action.mem_facts_iff, Action.mem_facts_iff, h.pre, h.preNeg, h.add, h.del]

theorem isApplicable_eq (h : action.SameFacts other) (state : State) :
    action.isApplicable state = other.isApplicable state := by
  rw [Bool.eq_iff_iff, isApplicable_iff, isApplicable_iff]
  simp only [h.pre, h.preNeg]

theorem apply_eq (h : action.SameFacts other) (state : State) :
    action.apply state = other.apply state := by
  rw [apply, apply, State.setAll_congr h.del, State.setAll_congr h.add]

theorem adds_eq (h : action.SameFacts other) (fact : Nat) : action.adds fact = other.adds fact := by
  rw [Bool.eq_iff_iff, adds, adds, List.contains_iff_mem, List.contains_iff_mem, h.add]

theorem deletes_eq (h : action.SameFacts other) (fact : Nat) :
    action.deletes fact = other.deletes fact := by
  rw [Bool.eq_iff_iff, deletes_iff, deletes_iff, h.del, h.add]

variable {partner otherPartner : Action}

theorem clobbers_eq (h : action.SameFacts other) (hpartner : partner.SameFacts otherPartner) :
    action.clobbers partner = other.clobbers otherPartner := by
  rw [Bool.eq_iff_iff, clobbers_iff, clobbers_iff]
  simp only [h.deletes_eq, h.add, hpartner.pre, hpartner.preNeg, hpartner.add, hpartner.deletes_eq]

theorem interferesWith_eq (h : action.SameFacts other) (hpartner : partner.SameFacts otherPartner) :
    action.interferesWith partner = other.interferesWith otherPartner := by
  rw [interferesWith, interferesWith, h.clobbers_eq hpartner, hpartner.clobbers_eq h]

end SameFacts

end Action

structure Goal.SameFacts (goal other : Goal) : Prop where
  pos : ∀ fact, fact ∈ goal.pos ↔ fact ∈ other.pos
  neg : ∀ fact, fact ∈ goal.neg ↔ fact ∈ other.neg

namespace Goal

theorem sameFacts_normalize (goal : Goal) : goal.normalize.SameFacts goal where
  pos fact := mem_ascending fact goal.pos
  neg fact := mem_ascending fact goal.neg

namespace SameFacts

variable {goal other : Goal}

theorem normalize_eq (h : goal.SameFacts other) : goal.normalize = other.normalize := by
  rw [normalize, normalize, ascending_congr h.pos, ascending_congr h.neg]

theorem mem_facts_iff (h : goal.SameFacts other) (fact : Nat) :
    fact ∈ goal.facts ↔ fact ∈ other.facts := by
  rw [facts, facts, List.mem_append, List.mem_append, h.pos, h.neg]

theorem isSatisfiedBy_eq (h : goal.SameFacts other) (state : State) :
    goal.isSatisfiedBy state = other.isSatisfiedBy state := by
  rw [Bool.eq_iff_iff, isSatisfiedBy, isSatisfiedBy, Bool.and_eq_true, Bool.and_eq_true]
  simp only [List.all_eq_true, h.pos, h.neg]

end SameFacts

end Goal

end BoundedPlanning
