namespace BoundedPlanning

def factLabel (fact : Nat) : String := s!"f{fact}"

def actionLabel (action : Nat) : String := s!"a{action}"

/-- A truth value for each of finitely many facts. -/
structure State where
  values : Array Bool
  deriving DecidableEq, Repr, Inhabited

namespace State

def empty (size : Nat) : State := ⟨Array.replicate size false⟩

def size (state : State) : Nat := state.values.size

/-- Whether a fact is true; a fact outside the state is not. -/
def holds (state : State) (fact : Nat) : Bool := state.values[fact]?.getD false

/-- Give a fact a value; a fact outside the state leaves it unchanged. -/
def set (state : State) (fact : Nat) (value : Bool) : State :=
  ⟨state.values.setIfInBounds fact value⟩

def setAll (state : State) (facts : List Nat) (value : Bool) : State :=
  facts.foldl (fun s fact => s.set fact value) state

/-- The state of the given size in which exactly the listed facts below that size hold. -/
def ofTrueFacts (size : Nat) (facts : List Nat) : State := (empty size).setAll facts true

def trueFacts (state : State) : List Nat := (List.range state.size).filter state.holds

@[simp] theorem size_set (state : State) (fact : Nat) (value : Bool) :
    (state.set fact value).size = state.size := by
  simp [set, size]

@[simp] theorem size_empty (n : Nat) : (empty n).size = n := by simp [empty, size]

@[simp] theorem holds_empty (n : Nat) (fact : Nat) : (empty n).holds fact = false := by
  simp only [holds, empty, Array.getElem?_replicate]
  split <;> rfl

theorem holds_eq_false_of_size_le {state : State} {fact : Nat} (h : state.size ≤ fact) :
    state.holds fact = false := by
  rw [holds, Array.getElem?_eq_none h]; rfl

theorem lt_size_of_holds {state : State} {fact : Nat} (h : state.holds fact = true) :
    fact < state.size := by
  refine Nat.lt_of_not_le fun hle => ?_
  rw [holds_eq_false_of_size_le hle] at h
  cases h

theorem holds_set (state : State) (fact other : Nat) (value : Bool) :
    (state.set fact value).holds other =
      if fact = other ∧ fact < state.size then value else state.holds other := by
  simp only [holds, set, size, Array.getElem?_setIfInBounds]
  by_cases hf : fact = other
  · subst hf
    by_cases hlt : fact < state.values.size
    · simp [hlt]
    · simp [hlt]
  · simp [hf]

@[simp] theorem size_setAll (facts : List Nat) (value : Bool) (state : State) :
    (state.setAll facts value).size = state.size := by
  induction facts generalizing state with
  | nil => rfl
  | cons fact rest ih =>
    rw [setAll, List.foldl_cons, ← setAll, ih, size_set]

/-- After a list of facts is set, its facts have the new value and all others keep theirs. -/
theorem holds_setAll (facts : List Nat) (value : Bool) (state : State) (fact : Nat) :
    (state.setAll facts value).holds fact =
      if fact ∈ facts ∧ fact < state.size then value else state.holds fact := by
  induction facts generalizing state with
  | nil => simp [setAll]
  | cons first rest ih =>
    rw [setAll, List.foldl_cons, ← setAll, ih, holds_set, size_set]
    by_cases hfirst : first = fact
    · subst hfirst
      by_cases hsize : first < state.size <;> simp [hsize]
    · have hne : fact ≠ first := fun h => hfirst h.symm
      simp [hfirst, hne]

@[simp] theorem size_ofTrueFacts (n : Nat) (facts : List Nat) :
    (ofTrueFacts n facts).size = n := by simp [ofTrueFacts]

theorem holds_ofTrueFacts (n : Nat) (facts : List Nat) (fact : Nat) :
    (ofTrueFacts n facts).holds fact = decide (fact ∈ facts ∧ fact < n) := by
  rw [ofTrueFacts, holds_setAll, size_empty, holds_empty]
  by_cases h : fact ∈ facts ∧ fact < n <;> simp [h]

theorem ext_holds {s t : State} (hsize : s.size = t.size)
    (h : ∀ fact, fact < s.size → s.holds fact = t.holds fact) : s = t := by
  cases s with
  | mk v =>
    cases t with
    | mk w =>
      congr 1
      refine Array.ext hsize fun i hv hw => ?_
      have := h i hv
      simpa [holds, hv, hw] using this

theorem mem_trueFacts {state : State} {fact : Nat} :
    fact ∈ state.trueFacts ↔ state.holds fact = true := by
  rw [trueFacts, List.mem_filter, List.mem_range]
  exact ⟨And.right, fun h => ⟨lt_size_of_holds h, h⟩⟩

def debugText (state : State) : String :=
  "\x7b" ++ String.intercalate ", " (state.trueFacts.map fun fact => s!"FactId({fact})") ++ "\x7d"

end State

end BoundedPlanning
