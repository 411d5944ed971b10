import BoundedPlanning.Main
import BoundedPlanning.Proofs.ConfiguredPlanning

namespace BoundedPlanning

section Codes

variable {truth : Nat → Bool} {clauses : Array (List Int)} {assumptions : List Int}

theorem codeHolds_litCode_iff {lit : Int} :
    CodeHolds truth (litCode lit) ↔ LiteralHolds truth lit := by
  unfold CodeHolds LiteralHolds litCode
  split
  · rename_i hpos
    have hvar : (2 * lit.natAbs + 0) / 2 = lit.natAbs := by omega
    have hsign : (2 * lit.natAbs + 0) % 2 = 0 := by omega
    rw [hvar, hsign, decide_eq_true hpos, beq_self_eq_true]
  · rename_i hnonpos
    have hvar : (2 * lit.natAbs + 1) / 2 = lit.natAbs := by omega
    have hsign : (2 * lit.natAbs + 1) % 2 = 1 := by omega
    rw [hvar, hsign, decide_eq_false hnonpos]
    rfl

theorem allHold_iff :
    AllHold clauses truth ↔
      ∀ clause ∈ clauses.toList, (Valuation.total truth).Satisfies clause := by
  simp only [AllHold, codeHolds_litCode_iff, Valuation.satisfies_total_iff, Array.mem_toList_iff]

/-- A clause of opposites of the assumptions refutes them. -/
theorem not_models_of_entails
    (h : Entails (AllHold clauses) ((assumptions.map litCode).toArray.map oppositeCode))
    (value : Valuation) : ¬ value.Models clauses.toList assumptions := by
  rintro ⟨hclauses, hassumptions⟩
  have hall : AllHold clauses fun var => (value var).getD false :=
    allHold_iff.mpr fun clause hclause => (hclauses clause hclause).getD
  obtain ⟨code, hcode, hholds⟩ := h _ hall
  simp only [Array.mem_map, List.mem_toArray, List.mem_map] at hcode
  obtain ⟨_, ⟨lit, hlit, rfl⟩, rfl⟩ := hcode
  have hvalue := Valuation.satisfies_singleton_iff.mp (hassumptions lit hlit)
  refine codeHolds_oppositeCode_iff.mp hholds (codeHolds_litCode_iff.mpr ?_)
  rw [LiteralHolds, hvalue, Option.getD_some]

end Codes

namespace Learner

variable {P : (Nat → Bool) → Prop} {assumptions : Array Nat} {expired : Learner P → Bool}

theorem searchPaced_ne_expired (h : ∀ reached, expired reached = false) (s : Learner P)
    (fuel : Nat) (pace : Pace) (limit : Nat) :
    (s.searchPaced assumptions expired fuel pace limit).2 ≠ .expired := by
  induction fuel generalizing s pace limit with
  | zero => simp [searchPaced]
  | succ fuel ih =>
      rw [searchPaced]
      split
      · simp
      · split
        · simp
        · rw [h s, if_neg Bool.false_ne_true]
          split
          · simp
          · dsimp only
            split
            · exact ih _ _ _
            · exact ih _ _ _

theorem search_ne_expired (h : ∀ reached, expired reached = false) (s : Learner P) (given : Nat) :
    (s.search assumptions expired given).2 ≠ .expired :=
  searchPaced_ne_expired h s _ _ _

end Learner

namespace LearningEngine

variable {engine : LearningEngine} {clauses : List (List Int)} {assumptions : List Int}
  {top : Nat} {expired : Assignment → Bool}

/-- The engine has taken the clauses, and the highest variable mentioned is known. -/
structure Has (engine : LearningEngine) (clauses : List (List Int)) (top : Nat) : Prop where
  clauses_eq : engine.clauses.toList = clauses
  maxUsed_eq : engine.maxUsed = top
  inRange : ∀ clause ∈ clauses, ∀ lit ∈ clause, lit ≠ 0 ∧ lit.natAbs ≤ top

theorem Has.mention (h : engine.Has clauses top) (lits : List Int) :
    (engine.mention lits).Has clauses (max top (highestVar lits)) := by
  refine ⟨h.clauses_eq, by rw [LearningEngine.mention, h.maxUsed_eq], ?_⟩
  intro clause hclause lit hlit
  obtain ⟨hnonzero, hle⟩ := h.inRange clause hclause lit hlit
  exact ⟨hnonzero, hle.trans (Nat.le_max_left _ _)⟩

theorem Has.addClause (h : engine.Has clauses top) {lits : List Int}
    (hlits : ∀ lit ∈ lits, lit ≠ 0) :
    (engine.addClause lits).Has (clauses ++ [lits]) (max top (highestVar lits)) := by
  have hmention := h.mention lits
  refine ⟨?_, hmention.maxUsed_eq, ?_⟩
  · rw [LearningEngine.addClause, Array.toList_push, hmention.clauses_eq]
  · rw [List.forall_mem_append, List.forall_mem_singleton]
    refine ⟨hmention.inRange, fun lit hlit => ⟨hlits lit hlit, ?_⟩⟩
    exact (natAbs_le_highestVar hlit).trans (Nat.le_max_right _ _)

theorem known?_value (engine : LearningEngine) (var : Nat) :
    (engine.value var).known? = engine.model.value? var := by
  unfold value
  cases engine.model.value? var with
  | none => rfl
  | some value => cases value <;> rfl

theorem answers_sat (clock : Clock) (top : Nat)
    (h : Valuation.Models engine.model.value? clauses assumptions) :
    (operations clock).Answers engine top clauses assumptions .sat := by
  refine ⟨engine.value, fun var _ _ => rfl, ?_⟩
  simpa only [known?_value] using h

theorem models_of_accepts {model : Model} (h : engine.accepts assumptions model = true) :
    Valuation.Models model.value? engine.clauses.toList assumptions := by
  rw [accepts, Bool.and_eq_true, List.all_eq_true, Array.all_eq_true'] at h
  refine ⟨fun clause hclause => ?_, fun lit hlit => ?_⟩
  · obtain ⟨lit, hlit, hsatisfies⟩ :=
      List.any_eq_true.mp (h.2 clause (Array.mem_toList_iff.mp hclause))
    exact ⟨lit, hlit, Model.satisfies_iff.mp hsatisfies⟩
  · exact Valuation.satisfies_singleton_iff.mpr (Model.satisfies_iff.mp (h.1 lit hlit))

/-- The answer is right, and the clauses are as before. -/
def Answered (clock : Clock) (top : Nat) (clauses : List (List Int)) (assumptions : List Int)
    (reply : EngineAnswer × LearningEngine) : Prop :=
  reply.2.Has clauses top ∧ (operations clock).Answers reply.2 top clauses assumptions reply.1

theorem Has.backtrack (h : engine.Has clauses top) (clock : Clock)
    (hassumptions : ∀ lit ∈ assumptions, lit ≠ 0 ∧ lit.natAbs ≤ top)
    (hexpired : ∀ reached, expired reached = false) :
    Answered clock top clauses assumptions (engine.backtrack assumptions expired) := by
  obtain ⟨rfl, rfl, hrange⟩ := h
  have hkeeps : engine.reference.Keeps engine.clauses.toList := ⟨rfl, hrange⟩
  have hchecked : engine.reference.intake.checkLiterals assumptions = .ok () :=
    Intake.checkLiterals_eq_ok_iff.mpr hassumptions
  have hcorrect : (engine.reference.decideUnder assumptions expired).Correct engine.maxUsed
      engine.clauses.toList assumptions := hkeeps.decideUnder_correct hchecked
  have hanswered : engine.reference.decideUnder assumptions expired ≠ .timedOut :=
    ReferenceSolver.decideUnder_ne_timedOut hexpired
  unfold LearningEngine.backtrack
  cases hresult : engine.reference.decideUnder assumptions expired with
  | sat model =>
      rw [hresult] at hcorrect
      exact ⟨⟨rfl, rfl, hrange⟩, answers_sat clock engine.maxUsed hcorrect.2⟩
  | unsat =>
      rw [hresult] at hcorrect
      exact ⟨⟨rfl, rfl, hrange⟩, hcorrect⟩
  | timedOut => exact absurd hresult hanswered

theorem Has.conclude (h : engine.Has clauses top) (clock : Clock)
    (hassumptions : ∀ lit ∈ assumptions, lit ≠ 0 ∧ lit.natAbs ≤ top)
    (hexpired : ∀ reached, expired reached = false) (model : Model)
    {verdict : Verdict (AllHold engine.clauses) (assumptions.map litCode).toArray}
    (hverdict : verdict ≠ .expired) :
    Answered clock top clauses assumptions
      (engine.conclude assumptions expired model verdict) := by
  cases verdict with
  | found finding =>
      cases finding with
      | refuted hentails =>
          refine ⟨h, ?_⟩
          rw [← h.clauses_eq]
          exact not_models_of_entails hentails
      | satisfied =>
          -- A model is only given out after it was held against the clauses.
          rw [LearningEngine.conclude]
          split
          · rename_i haccepts
            refine ⟨⟨h.clauses_eq, h.maxUsed_eq, h.inRange⟩, answers_sat clock top ?_⟩
            rw [← h.clauses_eq]
            exact models_of_accepts haccepts
          · exact h.backtrack clock hassumptions hexpired
  | expired => exact absurd rfl hverdict
  | undecided => exact h.backtrack clock hassumptions hexpired

theorem Has.decideUnder (h : engine.Has clauses top) (clock : Clock)
    (hassumptions : ∀ lit ∈ assumptions, lit ≠ 0 ∧ lit.natAbs ≤ top)
    (hexpired : ∀ reached, expired reached = false) :
    Answered clock top clauses assumptions (engine.decideUnder assumptions expired) := by
  have hnext : ∀ learner, ({ engine with learner := learner } : LearningEngine).Has clauses top :=
    fun _ => ⟨h.clauses_eq, h.maxUsed_eq, h.inRange⟩
  have hverdict : (engine.learner.search (assumptions.map litCode).toArray
      (fun learner => expired (learner.assignment engine.maxUsed)) engine.clauses.size).2 ≠
        .expired :=
    Learner.search_ne_expired (fun _ => hexpired _) _ _
  exact (hnext _).conclude clock hassumptions hexpired _ hverdict

/-- Where the time is never up, the engine decides what it is given. -/
theorem decides {clock : Clock} {timeout : Option Nat}
    (htimeout : ∀ assignment, (timeout.any fun budget => clock budget assignment) = false) :
    (operations clock).Decides timeout Has where
  init := ⟨rfl, rfl, by simp⟩
  addClause h lits _ hlits := ⟨_, rfl, h.addClause hlits⟩
  solve {engine clauses top} h assumptions hassumptions := by
    have hrange : ∀ lit ∈ assumptions, lit ≠ 0 ∧ lit.natAbs ≤ max top (highestVar assumptions) :=
      fun lit hlit =>
        ⟨hassumptions lit hlit, (natAbs_le_highestVar hlit).trans (Nat.le_max_right _ _)⟩
    obtain ⟨hnext, hanswers⟩ := (h.mention assumptions).decideUnder clock hrange htimeout
    exact ⟨_, _, rfl, hnext, hanswers⟩

end LearningEngine

/-- The program as it is installed decides every planning question, unless it is asked for Z3. -/
theorem CommandLine.installation_decides (started : Nat) {config : PlannerConfig}
    (h : config.backend ≠ .z3) : (installation started).Decides config := by
  have htimeout : ∀ assignment,
      (config.timeoutMs?.any fun budget => Clock.patient budget assignment) = false := by
    intro assignment
    unfold PlannerConfig.timeoutMs?
    split
    · rename_i hpos
      simpa [Clock.patient] using hpos.ne'
    · rfl
  unfold Installation.Decides
  cases hkind : config.backend with
  | batsat => exact ⟨_, _, rfl, LearningEngine.decides htimeout⟩
  | z3 => exact absurd hkind h
  | reference => exact htimeout

end BoundedPlanning
