import BoundedPlanning.Proofs.Valuation

namespace BoundedPlanning

variable {value : Valuation} {vars : List Nat} {firstAux : Nat}

theorem mem_ladder_iff {lits : List Int} :
    lits ∈ ladder vars firstAux ↔
      (∃ i, i + 2 < vars.length ∧
        lits = [literal (firstAux + i + 1) false, literal (firstAux + i) true]) ∨
      (∃ i var, i + 1 < vars.length ∧ vars[i + 1]? = some var ∧
        lits = [literal var false, literal (firstAux + i) true]) ∨
      ∃ i var, i + 1 < vars.length ∧ vars[i]? = some var ∧
        lits = [literal var false, literal (firstAux + i) false] := by
  unfold ladder
  split
  · rename_i hshort
    simp only [List.not_mem_nil, false_iff]
    rintro (⟨i, hi, -⟩ | ⟨i, var, hi, -⟩ | ⟨i, var, hi, -⟩) <;> omega
  · simp only [ladderSteps, ladderRung, List.mem_append, List.mem_map, List.mem_range,
      List.mem_flatMap, Prod.exists, List.mk_mem_zipIdx_iff_getElem?]
    refine or_congr ⟨?_, ?_⟩ ⟨?_, ?_⟩
    · rintro ⟨i, hi, rfl⟩
      exact ⟨i, by omega, rfl⟩
    · rintro ⟨i, hi, rfl⟩
      exact ⟨i, by omega, rfl⟩
    · rintro ⟨var, i, hget, hlits | hlits⟩
      · split at hlits
        · refine Or.inl ⟨i - 1, var, ?_, ?_, ?_⟩
          · have := (List.getElem?_eq_some_iff.mp hget).1
            omega
          · rwa [Nat.sub_add_cancel (by omega)]
          · rw [List.mem_singleton.mp hlits, Nat.add_sub_assoc (by omega)]
        · cases hlits
      · split at hlits
        · exact Or.inr ⟨i, var, by omega, hget, List.mem_singleton.mp hlits⟩
        · cases hlits
    · rintro (⟨i, var, hi, hget, rfl⟩ | ⟨i, var, hi, hget, rfl⟩)
      · exact ⟨var, i + 1, hget, Or.inl (by simp [← Nat.add_assoc])⟩
      · exact ⟨var, i, hget, Or.inr (by simp [hi])⟩

theorem aux_of_ladder (hvars : ∀ var ∈ vars, 0 < var) (haux : 0 < firstAux)
    (h : ∀ lits ∈ ladder vars firstAux, value.Satisfies lits) {j var : Nat}
    (hvar : vars[j]? = some var) (htrue : value var = some true) {i : Nat} (hij : i < j) :
    value (firstAux + i) = some true := by
  have hlength := (List.getElem?_eq_some_iff.mp hvar).1
  obtain ⟨gap, rfl⟩ := Nat.exists_eq_add_of_lt hij
  induction gap generalizing i with
  | zero =>
      refine Valuation.of_satisfies_pair (hvars var (List.mem_of_getElem? hvar)) (by omega) ?_ htrue
      exact h _ (mem_ladder_iff.mpr (Or.inr (Or.inl ⟨i, var, by omega, hvar, rfl⟩)))
  | succ gap ih =>
      have hnext : value (firstAux + (i + 1)) = some true := by
        refine ih (i := i + 1) ?_ ?_ ?_
        · rwa [show i + 1 + gap + 1 = i + (gap + 1) + 1 by omega]
        · omega
        · omega
      refine Valuation.of_satisfies_pair (show 0 < firstAux + i + 1 by omega) (by omega) ?_ hnext
      exact h _ (mem_ladder_iff.mpr (Or.inl ⟨i, by omega, rfl⟩))

theorem atMostOne_of_ladder (hvars : ∀ var ∈ vars, 0 < var) (haux : 0 < firstAux)
    (h : ∀ lits ∈ ladder vars firstAux, value.Satisfies lits) {i j var other : Nat}
    (hvar : vars[i]? = some var) (hother : vars[j]? = some other)
    (hvarTrue : value var = some true) (hotherTrue : value other = some true) : i = j := by
  by_contra hne
  wlog hij : i < j generalizing i j var other
  · exact this hother hvar hotherTrue hvarTrue (Ne.symm hne) (by omega)
  have hlength := (List.getElem?_eq_some_iff.mp hother).1
  have htrue := aux_of_ladder hvars haux h hother hotherTrue hij
  have hfalse : value (firstAux + i) = some false := by
    refine Valuation.of_satisfies_pair (hvars var (List.mem_of_getElem? hvar)) (by omega) ?_ hvarTrue
    exact h _ (mem_ladder_iff.mpr (Or.inr (Or.inr ⟨i, var, by omega, hvar, rfl⟩)))
  rw [htrue] at hfalse
  cases hfalse

/-- The ladder is satisfied when at most one variable is true and each auxiliary says whether the
true variable stands above it. -/
theorem satisfies_ladder {truth : Nat → Bool} (hvars : ∀ var ∈ vars, 0 < var)
    (haux : 0 < firstAux)
    (hone : ∀ i j var other : Nat, vars[i]? = some var → vars[j]? = some other →
      truth var = true → truth other = true → i = j)
    (habove : ∀ i, i + 1 < vars.length →
      (truth (firstAux + i) = true ↔ ∃ j var : Nat, i < j ∧ vars[j]? = some var ∧ truth var = true)) :
    ∀ lits ∈ ladder vars firstAux, (Valuation.total truth).Satisfies lits := by
  intro lits hlits
  rcases mem_ladder_iff.mp hlits with
    ⟨i, hi, rfl⟩ | ⟨i, var, hi, hvar, rfl⟩ | ⟨i, var, hi, hvar, rfl⟩
  · refine Valuation.satisfies_pair_of (by omega) (by omega) fun htrue => ?_
    obtain ⟨j, var, hj, hvar, hvarTrue⟩ := (habove (i + 1) (by omega)).mp htrue
    exact (habove i (by omega)).mpr ⟨j, var, by omega, hvar, hvarTrue⟩
  · refine Valuation.satisfies_pair_of (hvars var (List.mem_of_getElem? hvar)) (by omega)
      fun htrue => ?_
    exact (habove i hi).mpr ⟨i + 1, var, Nat.lt_succ_self i, hvar, htrue⟩
  · refine Valuation.satisfies_pair_of (hvars var (List.mem_of_getElem? hvar)) (by omega)
      fun htrue => ?_
    rw [← Bool.not_eq_true, habove i hi]
    rintro ⟨j, other, hj, hother, hotherTrue⟩
    have := hone i j var other hvar hother htrue hotherTrue
    omega

theorem aux_eq_false_of_ladder (hvars : ∀ var ∈ vars, 0 < var) (haux : 0 < firstAux)
    (h : ∀ lits ∈ ladder vars firstAux, value.Satisfies lits) {j var : Nat}
    (hvar : vars[j]? = some var) (htrue : value var = some true) {i : Nat} (hji : j ≤ i)
    (hi : i + 1 < vars.length) : value (firstAux + i) = some false := by
  induction i, hji using Nat.le_induction with
  | base =>
      apply Valuation.of_satisfies_pair (hvars var (List.mem_of_getElem? hvar)) (by omega) ?_ htrue
      exact h _ (mem_ladder_iff.mpr (Or.inr (Or.inr ⟨j, var, hi, hvar, rfl⟩)))
  | succ i hji ih =>
      have hbelow : value (firstAux + i) = some false := ih (by omega)
      have hstep := h _ (mem_ladder_iff.mpr (Or.inl ⟨i, by omega, rfl⟩))
      rw [Valuation.satisfies_cons_literal (by omega), Valuation.satisfies_cons_literal (by omega),
        hbelow] at hstep
      simpa [Nat.add_assoc] using hstep

/-- Values of the variables extend to values of the auxiliaries that satisfy the ladder exactly when
at most one variable is true. -/
theorem exists_satisfies_ladder_iff {truth : Nat → Bool} (hvars : ∀ var ∈ vars, 0 < var)
    (haux : 0 < firstAux) (hfresh : ∀ i, i + 1 < vars.length → firstAux + i ∉ vars) :
    (∃ extended : Nat → Bool, (∀ var ∈ vars, extended var = truth var) ∧
      ∀ lits ∈ ladder vars firstAux, (Valuation.total extended).Satisfies lits) ↔
    ∀ i j var other : Nat, vars[i]? = some var → vars[j]? = some other →
      truth var = true → truth other = true → i = j := by
  constructor
  · rintro ⟨extended, hagree, hsatisfied⟩ i j var other hvar hother hvarTrue hotherTrue
    apply atMostOne_of_ladder hvars haux hsatisfied hvar hother
    · rw [Valuation.total, hagree var (List.mem_of_getElem? hvar), hvarTrue]
    · rw [Valuation.total, hagree other (List.mem_of_getElem? hother), hotherTrue]
  · intro hone
    -- an auxiliary is true when one of the variables above its gap is
    let extended : Nat → Bool := fun var =>
      if var ∈ vars then truth var else (vars.drop (var - firstAux + 1)).any truth
    have hagree : ∀ var ∈ vars, extended var = truth var := fun var hvar => if_pos hvar
    refine ⟨extended, hagree, satisfies_ladder hvars haux ?_ ?_⟩
    · intro i j var other hvar hother
      rw [hagree var (List.mem_of_getElem? hvar), hagree other (List.mem_of_getElem? hother)]
      exact hone i j var other hvar hother
    · intro i hi
      have hextended : extended (firstAux + i) = (vars.drop (i + 1)).any truth := by
        show (if _ then _ else _) = _
        rw [if_neg (hfresh i hi), Nat.add_sub_cancel_left]
      rw [hextended, List.any_eq_true]
      constructor
      · rintro ⟨var, hvar, htrue⟩
        obtain ⟨gap, hgap⟩ := List.mem_iff_getElem?.mp hvar
        rw [List.getElem?_drop] at hgap
        refine ⟨i + 1 + gap, var, by omega, hgap, ?_⟩
        rw [hagree var (List.mem_of_getElem? hgap), htrue]
      · rintro ⟨j, var, hj, hvar, htrue⟩
        rw [hagree var (List.mem_of_getElem? hvar)] at htrue
        refine ⟨var, List.mem_iff_getElem?.mpr ⟨j - (i + 1), ?_⟩, htrue⟩
        rw [List.getElem?_drop, Nat.add_sub_cancel' hj, hvar]

end BoundedPlanning
