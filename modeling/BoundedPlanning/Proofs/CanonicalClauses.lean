import BoundedPlanning.Proofs.Ascending
import BoundedPlanning.Proofs.Valuation

namespace BoundedPlanning

/-- By variable, the negative literal before the positive one, and each of them once. -/
def InClauseOrder (lits : List Int) : Prop :=
  lits.Pairwise fun a b => a.natAbs < b.natAbs ∨ a.natAbs = b.natAbs ∧ a < b

theorem inClauseOrder_canonicalLiterals (lits : List Int) :
    InClauseOrder (canonicalLiterals lits) := by
  apply (pairwise_canonicalLiterals lits).imp
  rintro a b ⟨hle, hne⟩
  simp only [literalLe, Bool.or_eq_true, Bool.and_eq_true, decide_eq_true_eq] at hle
  omega

theorem InClauseOrder.eq_of_mem_iff {first second : List Int} (hfirst : InClauseOrder first)
    (hsecond : InClauseOrder second) (h : ∀ lit, lit ∈ first ↔ lit ∈ second) : first = second := by
  have : Std.Antisymm fun a b : Int => a.natAbs < b.natAbs ∨ a.natAbs = b.natAbs ∧ a < b :=
    ⟨fun a b hab hba => by omega⟩
  have : Std.Irrefl fun a b : Int => a.natAbs < b.natAbs ∨ a.natAbs = b.natAbs ∧ a < b :=
    ⟨fun a haa => by omega⟩
  exact List.Pairwise.eq_of_mem_iff hfirst hsecond h

/-- Why the literals make no clause.  They are shown as they were given if one of them is 0, and in
clause order otherwise. -/
inductive NoClause (lits : List Int) : ClauseError → Prop
  | zeroLiteral (hzero : 0 ∈ lits) : NoClause lits ⟨lits, .zeroLiteral⟩
  | bothPolarities {shown : List Int} {lit : Int} (hzero : 0 ∉ lits) (hlit : lit ∈ lits)
      (hneg : -lit ∈ lits) (horder : InClauseOrder shown)
      (hshown : ∀ lit, lit ∈ shown ↔ lit ∈ lits) :
      NoClause lits ⟨shown, .bothPolarities⟩

namespace Clause

variable {lits : List Int} {clause first second : Clause}

theorem eq_of_mem_iff (h : ∀ lit, lit ∈ first.literals ↔ lit ∈ second.literals) :
    first = second := by
  have hliterals : first.literals = second.literals :=
    eq_of_pairwise_key_lt first.increasing second.increasing h
  cases first
  cases second
  cases hliterals
  rfl

theorem neg_not_mem {lit : Int} (h : lit ∈ clause.literals) : -lit ∉ clause.literals := by
  intro hneg
  have hsame : lit = -lit := eq_of_key_eq clause.increasing h hneg (Int.natAbs_neg lit).symm
  have hnonzero := clause.nonzero lit h
  omega

theorem exists_ofLiterals_eq_ok_iff :
    (∃ clause, ofLiterals lits = .ok clause) ↔ 0 ∉ lits ∧ ∀ lit ∈ lits, -lit ∉ lits := by
  constructor
  · rintro ⟨clause, hclause⟩
    constructor
    · intro hzero
      exact clause.nonzero 0 ((mem_of_ofLiterals hclause).mpr hzero) rfl
    · intro lit hlit hneg
      rw [← mem_of_ofLiterals hclause] at hlit hneg
      exact neg_not_mem hlit hneg
  · rintro ⟨hzero, hopposing⟩
    apply exists_ofLiterals_eq_ok hzero
    intro a ha b hb habs
    rcases Int.natAbs_eq_natAbs_iff.mp habs with hsame | hneg
    · exact hsame
    · rw [hneg] at ha
      exact absurd ha (hopposing b hb)

theorem exists_ofLiterals_eq_error_iff :
    (∃ error, ofLiterals lits = .error error) ↔ 0 ∈ lits ∨ ∃ lit ∈ lits, -lit ∈ lits := by
  rw [← not_iff_not, not_or, not_exists, not_exists]
  simp only [not_and]
  rw [← exists_ofLiterals_eq_ok_iff]
  cases ofLiterals lits <;> simp

/-- Literals make the clause exactly if they are its literals, in any order and however often. -/
theorem ofLiterals_eq_ok_iff :
    ofLiterals lits = .ok clause ↔ ∀ lit, lit ∈ clause.literals ↔ lit ∈ lits := by
  constructor
  · intro h lit
    exact mem_of_ofLiterals h
  · intro h
    obtain ⟨made, hmade⟩ : ∃ made, ofLiterals lits = .ok made := by
      rw [exists_ofLiterals_eq_ok_iff]
      constructor
      · intro hzero
        exact clause.nonzero 0 ((h 0).mpr hzero) rfl
      · intro lit hlit hneg
        exact neg_not_mem ((h lit).mpr hlit) ((h (-lit)).mpr hneg)
    rw [hmade]
    apply congrArg
    apply eq_of_mem_iff
    intro lit
    rw [mem_of_ofLiterals hmade, h]

theorem ofLiterals_eq_error_iff {error : ClauseError} :
    ofLiterals lits = .error error ↔ NoClause lits error := by
  constructor
  · intro h
    have hfault := exists_ofLiterals_eq_error_iff.mp ⟨error, h⟩
    unfold ofLiterals at h
    split at h
    · rename_i hzero
      cases h
      exact .zeroLiteral hzero
    · rename_i hzero
      obtain ⟨lit, hlit, hneg⟩ := hfault.resolve_left hzero
      split at h
      · cases h
        exact .bothPolarities hzero hlit hneg (inClauseOrder_canonicalLiterals lits)
          fun lit => mem_sortUnique _ _ _
      · cases h
  · intro h
    cases h with
    | zeroLiteral hzero => exact dif_pos hzero
    | @bothPolarities shown lit hzero hlit hneg horder hshown =>
        obtain ⟨error, herror⟩ := exists_ofLiterals_eq_error_iff.mpr (Or.inr ⟨lit, hlit, hneg⟩)
        have hcanonical : shown = canonicalLiterals lits := by
          apply horder.eq_of_mem_iff (inClauseOrder_canonicalLiterals lits)
          intro lit
          rw [hshown]
          exact (mem_sortUnique _ _ _).symm
        rw [ofLiterals, dif_neg hzero] at herror ⊢
        split at herror
        · rename_i hboth
          rw [dif_pos hboth, hcanonical]
        · cases herror

theorem satisfies_iff_of_ofLiterals (h : ofLiterals lits = .ok clause) (model : Model) :
    (∃ lit ∈ clause.literals, model.satisfies lit = true) ↔
      ∃ lit ∈ lits, model.satisfies lit = true := by
  simp only [mem_of_ofLiterals h]

end Clause

namespace ClauseSet

variable {set : ClauseSet} {clause : Clause}

/-- Push lists of literals one after the other; one that makes no clause leaves the set alone. -/
def pushEach (set : ClauseSet) (lists : List (List Int)) : ClauseSet :=
  lists.foldl (fun set lits => (set.push lits).toOption.getD set) set

theorem contains_iff : set.contains clause = true ↔ clause ∈ set.toList := by
  rw [contains, List.contains_iff_mem]

theorem mem_iff_exists_of_ofLiterals {lits : List Int} (h : Clause.ofLiterals lits = .ok clause) :
    clause ∈ set.toList ↔ ∃ member ∈ set.toList, ∀ lit, lit ∈ member.literals ↔ lit ∈ lits := by
  simp only [← Clause.ofLiterals_eq_ok_iff, h, Except.ok.injEq, exists_eq_right']

theorem mem_push (set : ClauseSet) (lits : List Int) :
    clause ∈ ((set.push lits).toOption.getD set).toList ↔
      clause ∈ set.toList ∨ Clause.ofLiterals lits = .ok clause := by
  rw [push]
  cases hlits : Clause.ofLiterals lits with
  | error error => simp [Except.map, Except.toOption]
  | ok made => simp [Except.map, Except.toOption, add, toList, eq_comm]

theorem mem_pushEach (set : ClauseSet) (lists : List (List Int)) :
    clause ∈ (set.pushEach lists).toList ↔
      clause ∈ set.toList ∨ ∃ lits ∈ lists, Clause.ofLiterals lits = .ok clause := by
  induction lists generalizing set with
  | nil => simp [pushEach]
  | cons lits rest ih =>
      rw [pushEach, List.foldl_cons, ← pushEach, ih, mem_push, List.exists_mem_cons_iff, or_assoc]

end ClauseSet

/-- Literals fail to make a clause exactly if one of them is 0, which is reported first, or two of
them oppose each other.  Otherwise the clause lists the same literals by strictly increasing
variables; lists with the same literals, its own among them, make this clause and no others do.  A
set of clauses has it exactly if one of the lists with these literals went into it. -/
theorem ofLiterals_canonical (lits : List Int) :
    (∀ error, Clause.ofLiterals lits = .error error ↔ NoClause lits error) ∧
    ((∃ error, Clause.ofLiterals lits = .error error) ↔ 0 ∈ lits ∨ ∃ lit ∈ lits, -lit ∈ lits) ∧
    (0 ∈ lits ↔
      ∃ error, Clause.ofLiterals lits = .error error ∧ error.fault.text = "literal 0") ∧
    ∀ clause, Clause.ofLiterals lits = .ok clause →
      clause.literals.Pairwise (fun a b => a.natAbs < b.natAbs) ∧
      (∀ lit, lit ∈ clause.literals ↔ lit ∈ lits) ∧
      (∀ model : Model, (∃ lit ∈ clause.literals, model.satisfies lit = true) ↔
        ∃ lit ∈ lits, model.satisfies lit = true) ∧
      Clause.ofLiterals clause.literals = .ok clause ∧
      (∀ others, Clause.ofLiterals others = .ok clause ↔ ∀ lit, lit ∈ others ↔ lit ∈ lits) ∧
      ∀ (set : ClauseSet) (lists : List (List Int)), (set.pushEach lists).contains clause = true ↔
        (∃ member ∈ set.toList, ∀ lit, lit ∈ member.literals ↔ lit ∈ lits) ∨
          ∃ others ∈ lists, ∀ lit, lit ∈ others ↔ lit ∈ lits := by
  refine ⟨fun error => Clause.ofLiterals_eq_error_iff, Clause.exists_ofLiterals_eq_error_iff,
    ?_, ?_⟩
  · constructor
    · intro hzero
      exact ⟨_, Clause.ofLiterals_eq_error_iff.mpr (.zeroLiteral hzero), rfl⟩
    · rintro ⟨error, herror, htext⟩
      cases Clause.ofLiterals_eq_error_iff.mp herror with
      | zeroLiteral hzero => exact hzero
      | bothPolarities => simp [ClauseFault.text] at htext
  · intro clause hclause
    have hsame : ∀ others, Clause.ofLiterals others = .ok clause ↔
        ∀ lit, lit ∈ others ↔ lit ∈ lits := by
      intro others
      simp only [Clause.ofLiterals_eq_ok_iff, Clause.mem_of_ofLiterals hclause, iff_comm]
    refine ⟨clause.increasing, fun lit => Clause.mem_of_ofLiterals hclause,
      Clause.satisfies_iff_of_ofLiterals hclause, ?_, hsame, ?_⟩
    · exact Clause.ofLiterals_eq_ok_iff.mpr fun lit => Iff.rfl
    · intro set lists
      rw [ClauseSet.contains_iff, ClauseSet.mem_pushEach]
      simp only [hsame, ClauseSet.mem_iff_exists_of_ofLiterals hclause]

theorem ofLiterals_canonical_shuffled :
    ∃ clause, Clause.ofLiterals [3, -1, 3, 2] = .ok clause ∧
      clause.literals.Pairwise (fun a b => a.natAbs < b.natAbs) ∧
      Clause.ofLiterals clause.literals = .ok clause ∧
      Clause.ofLiterals [2, 3, -1] = .ok clause ∧
      (ClauseSet.empty.pushEach [[0, 4], [1, -2, 2], [-1, -1, 2, 3]]).contains clause = true ∧
      Clause.ofLiterals [2, 1, -2, 2] = .error ⟨[1, -2, 2], .bothPolarities⟩ := by
  obtain ⟨clause, hclause⟩ : ∃ clause, Clause.ofLiterals [3, -1, 3, 2] = .ok clause :=
    Clause.exists_ofLiterals_eq_ok_iff.mpr (by decide)
  obtain ⟨-, -, -, hclauses⟩ := ofLiterals_canonical [3, -1, 3, 2]
  obtain ⟨hincreasing, -, -, hrebuilt, hothers, hcontains⟩ := hclauses clause hclause
  refine ⟨clause, hclause, hincreasing, hrebuilt, (hothers _).mpr ?_, (hcontains _ _).mpr ?_,
    ((ofLiterals_canonical [2, 1, -2, 2]).1 _).mpr ?_⟩
  · simp
    omega
  · refine Or.inr ⟨[-1, -1, 2, 3], by simp, ?_⟩
    simp
    omega
  · apply NoClause.bothPolarities (by decide) (show (2 : Int) ∈ _ by decide) (by decide)
    · simp [InClauseOrder]
    · simp

end BoundedPlanning
