import BoundedPlanning.Proofs.RelaxedReachability
import Mathlib.Order.Bounds.Defs

namespace BoundedPlanning

/-- Passes one after the other, the last of which is the first that gains nothing. -/
inductive Saturates : List Action → State → Nat → State → Prop
  | done {waiting : List Action} {reached : State}
      (h : (relaxedPass waiting reached).changed = false) :
      Saturates waiting reached 1 (relaxedPass waiting reached).reached
  | again {waiting : List Action} {reached result : State} {passes : Nat}
      (h : (relaxedPass waiting reached).changed = true)
      (hrest : Saturates (relaxedPass waiting reached).waiting (relaxedPass waiting reached).reached
        passes result) :
      Saturates waiting reached (passes + 1) result

namespace Problem

/-- The facts that have a derivation: they are initial, or an action adds them whose positive
preconditions have derivations. -/
inductive Derivable (problem : Problem) : Nat → Prop
  | initial {fact : Nat} (h : problem.init.holds fact = true) : Derivable problem fact
  | added {action : Action} {fact : Nat} (haction : action ∈ problem.actions)
      (hpre : ∀ other ∈ action.pre, Derivable problem other) (hadd : fact ∈ action.add) :
      Derivable problem fact

/-- The sets that contain the initial facts and, with the positive preconditions of an action, its
adds. -/
def closedSets (problem : Problem) : Set (Set Nat) :=
  {facts | (∀ fact, problem.init.holds fact = true → fact ∈ facts) ∧
    ∀ action ∈ problem.actions, (∀ fact ∈ action.pre, fact ∈ facts) →
      ∀ fact ∈ action.add, fact ∈ facts}

end Problem

section Passes

variable {actions waiting : List Action} {reached next : State} {facts : Set Nat}

theorem waiting_relaxedPass_subset (actions : List Action) (reached : State) :
    (relaxedPass actions reached).waiting ⊆ actions := by
  induction actions generalizing reached with
  | nil => exact List.Subset.refl _
  | cons action rest ih =>
      rw [relaxedPass]
      split
      · exact List.subset_cons_of_subset _ (ih _)
      · exact List.cons_subset_cons _ (ih _)

/-- Firing in the middle of a pass does not lead out of a closed set. -/
theorem mem_of_holds_relaxedPass
    (hclosed : ∀ action ∈ actions, (∀ fact ∈ action.pre, fact ∈ facts) →
      ∀ fact ∈ action.add, fact ∈ facts)
    (hreached : ∀ fact, reached.holds fact = true → fact ∈ facts) :
    ∀ fact, (relaxedPass actions reached).reached.holds fact = true → fact ∈ facts := by
  induction actions generalizing reached with
  | nil => exact hreached
  | cons action rest ih =>
      obtain ⟨haction, hrest⟩ := List.forall_mem_cons.mp hclosed
      rw [relaxedPass]
      split
      · rename_i hpre
        apply ih hrest
        intro fact hfact
        rw [State.holds_setAll] at hfact
        split at hfact
        · rename_i hadd
          apply haction _ fact hadd.1
          intro other hother
          exact hreached other (List.all_eq_true.mp hpre other hother)
        · exact hreached fact hfact
      · exact ih hrest hreached

theorem mem_of_holds_relaxedClosure
    (hclosed : ∀ action ∈ waiting, (∀ fact ∈ action.pre, fact ∈ facts) →
      ∀ fact ∈ action.add, fact ∈ facts)
    (hreached : ∀ fact, reached.holds fact = true → fact ∈ facts) :
    ∀ fact, (relaxedClosure waiting reached).holds fact = true → fact ∈ facts := by
  fun_induction relaxedClosure waiting reached with
  | case1 waiting reached pass hchanged ih =>
      apply ih
      · intro action haction
        exact hclosed action (waiting_relaxedPass_subset _ _ haction)
      · exact mem_of_holds_relaxedPass hclosed hreached
  | case2 waiting reached pass hchanged => exact mem_of_holds_relaxedPass hclosed hreached

theorem State.Within.length_trueFacts_lt (h : reached.Within next)
    (hsize : next.size = reached.size) {fact : Nat} (hnew : reached.holds fact = false)
    (hfact : next.holds fact = true) : reached.trueFacts.length < next.trueFacts.length := by
  have hsublist : reached.trueFacts.Sublist next.trueFacts := by
    rw [trueFacts, trueFacts, hsize]
    exact List.monotone_filter_right _ h
  apply Nat.lt_of_not_le
  intro hle
  have hsame := hsublist.eq_of_length_le hle
  rw [← mem_trueFacts, ← hsame, mem_trueFacts, hnew] at hfact
  cases hfact

theorem exists_gained_of_relaxedPass_changed
    (hrange : ∀ action ∈ actions, ∀ fact ∈ action.add, fact < reached.size)
    (h : (relaxedPass actions reached).changed = true) :
    ∃ fact, reached.holds fact = false ∧
      (relaxedPass actions reached).reached.holds fact = true := by
  induction actions generalizing reached with
  | nil => cases h
  | cons action rest ih =>
      obtain ⟨haction, hrest⟩ := List.forall_mem_cons.mp hrange
      rw [relaxedPass] at h ⊢
      split at h
      · rename_i hpre
        rw [if_pos hpre]
        rcases Bool.or_eq_true_iff.mp h with hadd | hlater
        · obtain ⟨fact, hfact, hnew⟩ := List.any_eq_true.mp hadd
          refine ⟨fact, by simpa using hnew, within_relaxedPass _ _ _ ?_⟩
          rw [State.holds_setAll, if_pos ⟨hfact, haction fact hfact⟩]
        · obtain ⟨fact, hnew, hfact⟩ := ih (by simpa using hrest) hlater
          refine ⟨fact, ?_, hfact⟩
          rw [← Bool.not_eq_true] at hnew ⊢
          exact fun hold => hnew (State.within_setAll_true _ _ fact hold)
      · rename_i hpre
        rw [if_neg hpre]
        exact ih hrest h

/-- Every pass but the last gains a fact, so there are no more passes than facts to gain, and one. -/
theorem exists_saturates
    (hrange : ∀ action ∈ waiting, ∀ fact ∈ action.add, fact < reached.size) :
    ∃ passes, Saturates waiting reached passes (relaxedClosure waiting reached) ∧
      reached.trueFacts.length + passes ≤ (relaxedClosure waiting reached).trueFacts.length + 1 := by
  fun_induction relaxedClosure waiting reached with
  | case1 waiting reached pass hchanged ih =>
      obtain ⟨passes, hpasses, hcount⟩ := ih fun action haction => by
        rw [size_reached_relaxedPass]
        exact hrange action (waiting_relaxedPass_subset _ _ haction)
      refine ⟨passes + 1, .again hchanged hpasses, ?_⟩
      obtain ⟨fact, hnew, hfact⟩ := exists_gained_of_relaxedPass_changed hrange hchanged
      have hgrows : reached.trueFacts.length < pass.reached.trueFacts.length :=
        (within_relaxedPass waiting reached).length_trueFacts_lt
          (size_reached_relaxedPass waiting reached) hnew hfact
      omega
  | case2 waiting reached pass hchanged =>
      have hunchanged := Bool.eq_false_iff.mpr hchanged
      refine ⟨1, .done hunchanged, ?_⟩
      rw [(closedUnder_of_relaxedPass_unchanged hunchanged).1]

end Passes

namespace Problem

variable {problem other : Problem}

theorem trueFacts_relaxedReachable_mem_closedSets (problem : Problem) :
    {fact | fact ∈ problem.relaxedReachable.trueFacts} ∈ problem.closedSets := by
  constructor
  · intro fact hfact
    exact State.mem_trueFacts.mpr (within_relaxedClosure _ _ fact hfact)
  · intro action haction hpre fact hadd
    apply State.mem_trueFacts.mpr
    have hclosed : problem.relaxedReachable.ClosedUnder action := closedUnder_relaxedClosure haction
    apply hclosed _ fact hadd
    · rw [size_relaxedReachable]
      exact problem.actions_inRange action haction fact
        (Action.mem_facts_iff.mpr (Or.inr (Or.inr (Or.inl hadd))))
    · exact fun other hother => State.mem_trueFacts.mp (hpre other hother)

theorem isLeast_trueFacts_relaxedReachable (problem : Problem) :
    IsLeast problem.closedSets {fact | fact ∈ problem.relaxedReachable.trueFacts} := by
  refine ⟨problem.trueFacts_relaxedReachable_mem_closedSets, ?_⟩
  rintro facts ⟨hinit, hclosed⟩ fact hfact
  exact mem_of_holds_relaxedClosure hclosed hinit fact (State.mem_trueFacts.mp hfact)

theorem setOf_derivable_mem_closedSets (problem : Problem) :
    {fact | problem.Derivable fact} ∈ problem.closedSets :=
  ⟨fun _ h => .initial h, fun _ haction hpre _ hadd => .added haction hpre hadd⟩

theorem Derivable.mem_of_closed {fact : Nat} (h : problem.Derivable fact) {facts : Set Nat}
    (hfacts : facts ∈ problem.closedSets) : fact ∈ facts := by
  induction h with
  | initial h => exact hfacts.1 _ h
  | added haction _ hadd ih => exact hfacts.2 _ haction ih _ hadd

theorem mem_relaxedReachable_iff_derivable {fact : Nat} :
    fact ∈ problem.relaxedReachable.trueFacts ↔ problem.Derivable fact := by
  constructor
  · intro h
    exact problem.isLeast_trueFacts_relaxedReachable.2 problem.setOf_derivable_mem_closedSets h
  · intro h
    exact h.mem_of_closed problem.trueFacts_relaxedReachable_mem_closedSets

/-- A derivation needs to know which actions there are, not their order. -/
theorem Derivable.of_same_actions {fact : Nat} (h : problem.Derivable fact)
    (hinit : other.init = problem.init)
    (hactions : ∀ action ∈ problem.actions, action ∈ other.actions) : other.Derivable fact := by
  induction h with
  | initial h => exact .initial (hinit ▸ h)
  | added haction _ hadd ih => exact .added (hactions _ haction) ih hadd

theorem relaxedReachable_congr (hinit : other.init = problem.init)
    (hactions : ∀ action, action ∈ other.actions ↔ action ∈ problem.actions) :
    other.relaxedReachable = problem.relaxedReachable := by
  apply State.ext_holds
  · rw [size_relaxedReachable, size_relaxedReachable, factCount, factCount, ← other.init_size,
      ← problem.init_size, hinit]
  · intro fact _
    rw [Bool.eq_iff_iff, ← State.mem_trueFacts, ← State.mem_trueFacts,
      mem_relaxedReachable_iff_derivable, mem_relaxedReachable_iff_derivable]
    constructor
    · intro h
      exact h.of_same_actions hinit.symm fun action => (hactions action).mp
    · intro h
      exact h.of_same_actions hinit fun action => (hactions action).mpr

end Problem

/-- The relaxed reachable facts are found after finitely many passes, each of which but the last
gains a fact.  They are the least closed set, which consists of the facts that have a derivation, and
neither order nor repetition of the actions matters for them. -/
theorem relaxedReachable_least (problem : Problem) :
    (∃ passes, Saturates problem.actions problem.init passes problem.relaxedReachable ∧
      problem.init.trueFacts.length + passes ≤ problem.relaxedReachable.trueFacts.length + 1) ∧
    IsLeast problem.closedSets {fact | fact ∈ problem.relaxedReachable.trueFacts} ∧
    (∀ fact, fact ∈ problem.relaxedReachable.trueFacts ↔ problem.Derivable fact) ∧
    ∀ other : Problem, other.init = problem.init →
      (∀ action, action ∈ other.actions ↔ action ∈ problem.actions) →
      other.relaxedReachable = problem.relaxedReachable := by
  refine ⟨?_, problem.isLeast_trueFacts_relaxedReachable,
    fun fact => Problem.mem_relaxedReachable_iff_derivable,
    fun other => Problem.relaxedReachable_congr⟩
  apply exists_saturates
  intro action haction fact hadd
  rw [problem.init_size]
  exact problem.actions_inRange action haction fact
    (Action.mem_facts_iff.mpr (Or.inr (Or.inr (Or.inl hadd))))

/-- Three dominoes in a row and one apart.  Each falls by its neighbour, and the actions are listed
against the fall. -/
def dominoes : Problem where
  facts := ["first", "second", "third", "apart"]
  actions := [⟨"third", [1], [], [2], []⟩, ⟨"second", [0], [2], [1], [0]⟩, ⟨"apart", [3], [], [3], []⟩]
  init := ⟨#[true, false, false, false]⟩
  goal := ⟨[2], [3]⟩
  actions_inRange := by decide
  actions_normal := by
    simp only [Action.Normal]
    decide
  init_size := rfl
  goal_inRange := by decide
  goal_pos_ascending := by decide
  goal_neg_ascending := by decide
  goal_consistent := by decide

def dominoesAlong : Problem :=
  { dominoes with
    actions := dominoes.actions.reverse
    actions_inRange := fun action h => dominoes.actions_inRange action (List.mem_reverse.mp h)
    actions_normal := fun action h => dominoes.actions_normal action (List.mem_reverse.mp h) }

theorem relaxedReachable_least_dominoes :
    dominoes.Derivable 2 ∧ ¬ dominoes.Derivable 3 ∧
    (∃ passes ≤ 3, Saturates dominoes.actions dominoes.init passes dominoes.relaxedReachable) ∧
    dominoesAlong.init = dominoes.init ∧
    (∀ action, action ∈ dominoesAlong.actions ↔ action ∈ dominoes.actions) ∧
    dominoesAlong.relaxedReachable = dominoes.relaxedReachable := by
  obtain ⟨⟨passes, hpasses, hcount⟩, -, hderivable, hreordered⟩ := relaxedReachable_least dominoes
  have htrueFacts : dominoes.relaxedReachable.trueFacts = [0, 1, 2] := by
    decide +kernel
  have hinit : dominoes.init.trueFacts.length = 1 := by
    decide +kernel
  have hsame : ∀ action, action ∈ dominoesAlong.actions ↔ action ∈ dominoes.actions :=
    fun _ => List.mem_reverse
  refine ⟨(hderivable 2).mp ?_, fun h => ?_, ⟨passes, ?_, hpasses⟩, rfl, hsame,
    hreordered dominoesAlong rfl hsame⟩
  · simp [htrueFacts]
  · simpa [htrueFacts] using (hderivable 3).mpr h
  · simp only [htrueFacts, hinit, List.length_cons, List.length_nil] at hcount
    omega

end BoundedPlanning
