import BoundedPlanning.Solver.Learning.Order

/-!
A ledger of clauses that follow from a premise.  A clause is entered only with a proof that it
follows, which is found by propagation: if its literals are false, some clauses of the ledger, each
looked at once, make further literals false until one of these clauses is false itself.

A literal has a code, twice its variable and one more if it is negative.
-/

namespace BoundedPlanning

def litCode (lit : Int) : Nat := 2 * lit.natAbs + if 0 < lit then 0 else 1

def oppositeCode (code : Nat) : Nat := code ^^^ 1

def CodeHolds (truth : Nat → Bool) (code : Nat) : Prop := truth (code / 2) = (code % 2 == 0)

theorem codeHolds_oppositeCode_iff {truth : Nat → Bool} {code : Nat} :
    CodeHolds truth (oppositeCode code) ↔ ¬ CodeHolds truth code := by
  have hvar : (code ^^^ 1) / 2 = code / 2 := by
    rw [Nat.xor_div_two, Nat.div_eq_of_lt Nat.one_lt_two, Nat.xor_zero]
  have hsign : ((code ^^^ 1) % 2 == 0) = !(code % 2 == 0) := by
    have hodd : (code ^^^ 1) % 2 = 1 ↔ ¬ (code % 2 = 1 ↔ 1 % 2 = 1) := Nat.xor_mod_two_eq_one
    rcases Nat.mod_two_eq_zero_or_one code with h | h
    · have hflipped : (code ^^^ 1) % 2 = 1 := by omega
      rw [hflipped, h]
      rfl
    · have hflipped : (code ^^^ 1) % 2 = 0 := by omega
      rw [hflipped, h]
      rfl
  rw [CodeHolds, CodeHolds, oppositeCode, hvar, hsign]
  cases truth (code / 2) <;> cases code % 2 == 0 <;> decide

/-- Some literal of the clause holds wherever the premise does. -/
def Entails (Premise : (Nat → Bool) → Prop) (lits : Array Nat) : Prop :=
  ∀ truth, Premise truth → ∃ lit ∈ lits, CodeHolds truth lit

/-- The marked literals are false. -/
def Excludes (truth : Nat → Bool) (marks : Array Bool) : Prop :=
  ∀ lit, marks.getD lit false = true → ¬ CodeHolds truth lit

theorem Excludes.replaceAt {truth : Nat → Bool} {marks : Array Bool} (h : Excludes truth marks)
    {lit : Nat} (hlit : ¬ CodeHolds truth lit) : Excludes truth (replaceAt marks lit true) := by
  intro other hother
  by_cases heq : lit = other
  · exact heq ▸ hlit
  · rw [BoundedPlanning.replaceAt, Array.getD_eq_getD_getElem?,
      Array.getElem?_setIfInBounds_ne heq, ← Array.getD_eq_getD_getElem?] at hother
    exact h other hother

structure Ledger (Premise : (Nat → Bool) → Prop) where
  clauses : Array (Array Nat) := #[]
  entailed : ∀ lits ∈ clauses, Entails Premise lits := by simp
  /-- The literals that the premise makes false are marked where they are known. -/
  falsified : Array Bool := #[]
  excludes : ∀ truth, Premise truth → Excludes truth falsified := by simp [Excludes]
  refuted : Bool := false
  refutes : refuted = true → Entails Premise #[] := by simp

/-- Whether clauses with the given numbers, looked at one after the other, leave no way to make all
of them true while the marked literals are false. -/
def clash (clauses : Array (Array Nat)) : (hints : List Nat) → (marks : Array Bool) → Bool
  | [], _ => false
  | hint :: hints, marks =>
    match clauses[hint]? with
    | none => clash clauses hints marks
    | some lits =>
      match lits.find? fun lit => !marks.getD lit false with
      | none => true
      | some lit =>
        if lits.all fun other => other == lit || marks.getD other false then
          clash clauses hints (replaceAt marks (oppositeCode lit) true)
        else clash clauses hints marks

theorem clash_eq_false {clauses : Array (Array Nat)} {truth : Nat → Bool} {hints : List Nat}
    {marks : Array Bool} (hclauses : ∀ lits ∈ clauses, ∃ lit ∈ lits, CodeHolds truth lit)
    (hmarks : Excludes truth marks) : clash clauses hints marks = false := by
  fun_induction clash clauses hints marks with
  | case1 => rfl
  | case2 marks hint hints hnone ih => exact ih hmarks
  | case3 marks hint hints lits hlits hnone =>
      obtain ⟨lit, hlit, hholds⟩ := hclauses lits (Array.mem_of_getElem? hlits)
      have hmarked := Array.find?_eq_none.mp hnone lit hlit
      exact absurd hholds (hmarks lit (by simpa using hmarked))
  | case4 marks hint hints lits hlits lit hfound hunit ih =>
      refine ih (hmarks.replaceAt ?_)
      rw [codeHolds_oppositeCode_iff, Classical.not_not]
      obtain ⟨other, hother, hholds⟩ := hclauses lits (Array.mem_of_getElem? hlits)
      have hcase := Array.all_eq_true'.mp hunit other hother
      rcases Bool.or_eq_true_iff.mp hcase with heq | hmarked
      · exact beq_iff_eq.mp heq ▸ hholds
      · exact absurd hholds (hmarks other hmarked)
  | case5 marks hint hints lits hlits lit hfound hmany ih => exact ih hmarks

namespace Ledger

variable {P : (Nat → Bool) → Prop}

/-- Whether the clauses with the given numbers show that a clause follows. -/
def proves (ledger : Ledger P) (lits : Array Nat) (hints : List Nat) : Bool :=
  let marks := lits.foldl (fun marks lit => replaceAt marks lit true) ledger.falsified
  lits.any (fun lit => marks.getD (oppositeCode lit) false) || clash ledger.clauses hints marks

theorem entails_of_proves {ledger : Ledger P} {lits : Array Nat} {hints : List Nat}
    (h : ledger.proves lits hints = true) : Entails P lits := by
  intro truth htruth
  refine Classical.byContradiction fun hnone => ?_
  have hlits : ∀ lit ∈ lits, ¬ CodeHolds truth lit := fun lit hlit hholds =>
    hnone ⟨lit, hlit, hholds⟩
  have hmarks : Excludes truth
      (lits.foldl (fun marks lit => replaceAt marks lit true) ledger.falsified) := by
    rw [← Array.foldl_toList]
    refine List.foldlRecOn _ _ (ledger.excludes truth htruth) fun marks hmarks lit hlit => ?_
    exact hmarks.replaceAt (hlits lit (Array.mem_toList_iff.mp hlit))
  rcases Bool.or_eq_true_iff.mp h with hopposed | hclash
  · obtain ⟨lit, hlit, hmarked⟩ := Array.any_eq_true'.mp hopposed
    exact hmarks _ hmarked (codeHolds_oppositeCode_iff.mpr (hlits lit hlit))
  · have hclauses : ∀ clause ∈ ledger.clauses, ∃ lit ∈ clause, CodeHolds truth lit :=
      fun clause hclause => ledger.entailed clause hclause truth htruth
    rw [clash_eq_false hclauses hmarks] at hclash
    cases hclash

theorem entails_of_refuted {ledger : Ledger P} (h : ledger.refuted = true) (lits : Array Nat) :
    Entails P lits := by
  intro truth htruth
  obtain ⟨lit, hlit, -⟩ := ledger.refutes h truth htruth
  cases Array.not_mem_empty lit hlit

def add (ledger : Ledger P) (lits : Array Nat) (h : Entails P lits) : Ledger P :=
  { ledger with
    clauses := ledger.clauses.push lits
    entailed := by
      intro clause hclause
      rcases Array.mem_push.mp hclause with hold | rfl
      · exact ledger.entailed clause hold
      · exact h }

/-- Mark the opposite of a literal that always holds. -/
def settle (ledger : Ledger P) (lit : Nat) (h : Entails P #[lit]) : Ledger P :=
  { ledger with
    falsified := replaceAt ledger.falsified (oppositeCode lit) true
    excludes := by
      intro truth htruth
      refine (ledger.excludes truth htruth).replaceAt ?_
      rw [codeHolds_oppositeCode_iff, Classical.not_not]
      simpa using h truth htruth }

def refute (ledger : Ledger P) (h : Entails P #[]) : Ledger P :=
  { ledger with refuted := true, refutes := fun _ => h }

/-- Make room for the marks of both literals of one more variable. -/
def addVariable (ledger : Ledger P) : Ledger P :=
  { ledger with
    falsified := (ledger.falsified.push false).push false
    excludes := by
      intro truth htruth lit hlit
      refine ledger.excludes truth htruth lit ?_
      simp only [Array.getD_eq_getD_getElem?, Array.getElem?_push] at hlit ⊢
      split at hlit
      · cases hlit
      · split at hlit
        · cases hlit
        · exact hlit }

def strengthen {Q : (Nat → Bool) → Prop} (ledger : Ledger P) (h : ∀ truth, Q truth → P truth) :
    Ledger Q :=
  { clauses := ledger.clauses
    entailed := fun lits hlits truth htruth => ledger.entailed lits hlits truth (h truth htruth)
    falsified := ledger.falsified
    excludes := fun truth htruth => ledger.excludes truth (h truth htruth)
    refuted := ledger.refuted
    refutes := fun hrefuted truth htruth => ledger.refutes hrefuted truth (h truth htruth) }

end Ledger

end BoundedPlanning
