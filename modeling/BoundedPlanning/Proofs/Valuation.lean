import BoundedPlanning.Encoding.Encoder
import BoundedPlanning.Model
import BoundedPlanning.Proofs.VariableIndex

namespace BoundedPlanning

theorem natAbs_literal (var : Nat) (value : Bool) : (literal var value).natAbs = var := by
  cases value <;> simp [literal]

theorem literal_pos_iff {var : Nat} (hvar : 0 < var) (value : Bool) :
    decide (0 < literal var value) = value := by
  cases value
  · simp only [literal, Bool.false_eq_true, if_false, decide_eq_false_iff_not]
    omega
  · simp only [literal, if_true, decide_eq_true_eq]
    omega

theorem literal_ne_zero {var : Nat} (hvar : 0 < var) (value : Bool) : literal var value ≠ 0 := by
  intro h
  have := natAbs_literal var value
  rw [h] at this
  simp only [Int.natAbs_zero] at this
  omega

/-- A truth value for some of the variables. -/
abbrev Valuation := Nat → Option Bool

namespace Valuation

variable {value : Valuation}

def Satisfies (value : Valuation) (lits : List Int) : Prop :=
  ∃ lit ∈ lits, value lit.natAbs = some (decide (0 < lit))

def Models (value : Valuation) (clauses : List (List Int)) (assumptions : List Int) : Prop :=
  (∀ clause ∈ clauses, value.Satisfies clause) ∧ ∀ lit ∈ assumptions, value.Satisfies [lit]

/-- The valuation that gives every variable a value. -/
def total (truth : Nat → Bool) : Valuation := fun var => some (truth var)

@[simp] theorem not_satisfies_nil : ¬ value.Satisfies [] := by
  rintro ⟨lit, hlit, -⟩
  cases hlit

/-- Giving the remaining variables values keeps clauses satisfied. -/
theorem Satisfies.getD {lits : List Int} (h : value.Satisfies lits) :
    (total fun var => (value var).getD false).Satisfies lits := by
  obtain ⟨lit, hlit, hvalue⟩ := h
  exact ⟨lit, hlit, by rw [total, hvalue, Option.getD_some]⟩

theorem satisfies_singleton_iff {lit : Int} :
    value.Satisfies [lit] ↔ value lit.natAbs = some (decide (0 < lit)) := by
  simp [Satisfies]

theorem satisfies_cons_literal {var : Nat} (hvar : 0 < var) {truth : Bool} {rest : List Int} :
    value.Satisfies (literal var truth :: rest) ↔
      value var = some truth ∨ value.Satisfies rest := by
  simp only [Satisfies, List.mem_cons, exists_eq_or_imp, natAbs_literal, literal_pos_iff hvar]

theorem satisfies_map_literal {α : Type} {items : List α} {var : α → Nat} {truth : Bool}
    (hvar : ∀ item ∈ items, 0 < var item) :
    value.Satisfies (items.map fun item => literal (var item) truth) ↔
      ∃ item ∈ items, value (var item) = some truth := by
  simp only [Satisfies, List.mem_map]
  constructor
  · rintro ⟨_, ⟨item, hitem, rfl⟩, hvalue⟩
    rw [natAbs_literal, literal_pos_iff (hvar item hitem)] at hvalue
    exact ⟨item, hitem, hvalue⟩
  · rintro ⟨item, hitem, hvalue⟩
    refine ⟨_, ⟨item, hitem, rfl⟩, ?_⟩
    rw [natAbs_literal, literal_pos_iff (hvar item hitem)]
    exact hvalue

/-- A clause of two literals, read as an implication. -/
theorem of_satisfies_pair {var other : Nat} {result : Bool} (hvar : 0 < var) (hother : 0 < other)
    (h : value.Satisfies [literal var false, literal other result])
    (hvalue : value var = some true) : value other = some result := by
  rw [satisfies_cons_literal hvar, satisfies_cons_literal hother] at h
  rcases h with h | h | h
  · rw [hvalue] at h
    cases h
  · exact h
  · exact absurd h not_satisfies_nil

theorem satisfies_pair_of {truth : Nat → Bool} {var other : Nat} {result : Bool}
    (hvar : 0 < var) (hother : 0 < other) (h : truth var = true → truth other = result) :
    (total truth).Satisfies [literal var false, literal other result] := by
  rw [satisfies_cons_literal hvar, satisfies_cons_literal hother]
  cases hvalue : truth var with
  | false => exact Or.inl (congrArg some hvalue)
  | true => exact Or.inr (Or.inl (congrArg some (h hvalue)))

end Valuation

theorem Model.satisfies_iff {model : Model} {lit : Int} :
    model.satisfies lit = true ↔ model.value? lit.natAbs = some (decide (0 < lit)) := by
  simp [Model.satisfies]

/-- The value that a valuation gives to the variable of the entity at the step. -/
def VariableIndex.valueOf (index : VariableIndex) (value : Valuation) (entity : Entity)
    (step : Nat) : Option Bool :=
  (index.get? entity step).bind value

theorem VariableIndex.valueOf_eq_some_iff {index : VariableIndex} {value : Valuation}
    {entity : Entity} {step : Nat} {truth : Bool} :
    index.valueOf value entity step = some truth ↔
      ∃ var, index.get? entity step = some var ∧ value var = some truth :=
  Option.bind_eq_some_iff

theorem VariableIndex.valueOf_of_get? {index : VariableIndex} {value : Valuation}
    {entity : Entity} {step var : Nat} (h : index.get? entity step = some var) :
    index.valueOf value entity step = value var := by
  rw [valueOf, h, Option.bind_some]

def Model.SatisfiesAll (model : Model) (clauses : List Clause) : Prop :=
  ∀ clause ∈ clauses, ∃ lit ∈ clause.literals, model.satisfies lit = true

theorem Model.satisfiesAll_iff {model : Model} {clauses : List Clause} :
    model.SatisfiesAll clauses ↔
      ∀ clause ∈ clauses, Valuation.Satisfies model.value? clause.literals := by
  simp only [Model.SatisfiesAll, Model.satisfies_iff, Valuation.Satisfies]

theorem Clause.mem_of_ofLiterals {lits : List Int} {clause : Clause}
    (h : Clause.ofLiterals lits = .ok clause) {lit : Int} :
    lit ∈ clause.literals ↔ lit ∈ lits := by
  unfold Clause.ofLiterals at h
  split at h
  · cases h
  · split at h
    · cases h
    · cases h
      exact mem_sortUnique _ _ _

theorem hasNeighboursOfOneVariable_eq_false {lits : List Int} (hnodup : lits.Nodup)
    (h : ∀ a ∈ lits, ∀ b ∈ lits, a.natAbs = b.natAbs → a = b) :
    hasNeighboursOfOneVariable lits = false := by
  induction lits with
  | nil => rfl
  | cons a rest ih =>
      cases rest with
      | nil => rfl
      | cons b rest =>
          rw [hasNeighboursOfOneVariable, Bool.or_eq_false_iff]
          constructor
          · rw [beq_eq_false_iff_ne]
            intro habs
            have hab := h a (by simp) b (by simp) habs
            simp [hab] at hnodup
          · exact ih hnodup.of_cons fun c hc d hd => h c (by simp [hc]) d (by simp [hd])

theorem Clause.exists_ofLiterals_eq_ok {lits : List Int} (hzero : 0 ∉ lits)
    (h : ∀ a ∈ lits, ∀ b ∈ lits, a.natAbs = b.natAbs → a = b) :
    ∃ clause, Clause.ofLiterals lits = .ok clause := by
  have hnodup : (canonicalLiterals lits).Nodup :=
    (pairwise_canonicalLiterals lits).imp fun hab => hab.2
  have hboth : ¬ hasNeighboursOfOneVariable (canonicalLiterals lits) = true := by
    rw [Bool.not_eq_true]
    refine hasNeighboursOfOneVariable_eq_false hnodup fun a ha b hb => ?_
    exact h a ((mem_sortUnique _ _ _).mp ha) b ((mem_sortUnique _ _ _).mp hb)
  exact ⟨_, by rw [Clause.ofLiterals, dif_neg hzero, dif_neg hboth]⟩

theorem clausesOfLiterals_eq_ok_iff {lists : List (List Int)} {clauses : List Clause} :
    clausesOfLiterals lists = .ok clauses ↔
      List.Forall₂ (fun lits clause => Clause.ofLiterals lits = .ok clause) lists clauses := by
  rw [clausesOfLiterals, except_mapM_eq_ok_iff]
  have hiff : ∀ lits clause,
      (Clause.ofLiterals lits).mapError EncodingError.invalidClause = .ok clause ↔
        Clause.ofLiterals lits = .ok clause := by
    intro lits clause
    cases Clause.ofLiterals lits <;> simp [Except.mapError]
  simp only [hiff]

theorem exists_clausesOfLiterals_eq_ok {lists : List (List Int)}
    (h : ∀ lits ∈ lists, ∃ clause, Clause.ofLiterals lits = .ok clause) :
    ∃ clauses, clausesOfLiterals lists = .ok clauses := by
  refine exists_mapM_eq_ok fun lits hlits => ?_
  obtain ⟨clause, hclause⟩ := h lits hlits
  exact ⟨clause, by rw [hclause]; rfl⟩

theorem exists_lits_of_mem_clauses {lists : List (List Int)} {clauses : List Clause}
    (h : clausesOfLiterals lists = .ok clauses) {clause : Clause} (hclause : clause ∈ clauses) :
    ∃ lits ∈ lists, ∀ lit, lit ∈ clause.literals ↔ lit ∈ lits := by
  obtain ⟨lits, hlits, hclause⟩ :=
    exists_of_forall₂_right (clausesOfLiterals_eq_ok_iff.mp h) hclause
  exact ⟨lits, hlits, fun lit => Clause.mem_of_ofLiterals hclause⟩

/-- Clauses are satisfied when the lists of literals from which they are made are. -/
theorem satisfies_clausesOfLiterals_iff {lists : List (List Int)} {clauses : List Clause}
    (h : clausesOfLiterals lists = .ok clauses) {value : Valuation} :
    (∀ clause ∈ clauses, value.Satisfies clause.literals) ↔
      ∀ lits ∈ lists, value.Satisfies lits := by
  have hall := clausesOfLiterals_eq_ok_iff.mp h
  clear h
  induction hall with
  | nil => simp
  | cons hclause _ ih =>
      rw [List.forall_mem_cons, List.forall_mem_cons]
      refine and_congr ?_ ih
      simp only [Valuation.Satisfies, Clause.mem_of_ofLiterals hclause]

end BoundedPlanning
