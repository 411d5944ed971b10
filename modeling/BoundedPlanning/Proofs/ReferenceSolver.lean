import BoundedPlanning.Proofs.Search
import BoundedPlanning.Solver.Reference

namespace BoundedPlanning

/-- The answer is right for the clauses and assumptions over the variables up to `numVars`. -/
def SolveResult.Correct (numVars : Nat) (clauses : List (List Int)) (assumptions : List Int) :
    SolveResult → Prop
  | .sat model => model.maxVar = numVars ∧ Valuation.Models model.value? clauses assumptions
  | .unsat => ∀ value : Valuation, ¬ value.Models clauses assumptions
  | .timedOut => True

theorem Intake.checkLiterals_eq_ok_iff {intake : Intake} {lits : List Int} :
    intake.checkLiterals lits = .ok () ↔ ∀ lit ∈ lits, lit ≠ 0 ∧ lit.natAbs ≤ intake.reserved := by
  induction lits with
  | nil => simp [checkLiterals]
  | cons lit rest ih =>
      rw [List.forall_mem_cons, ← ih, checkLiterals]
      by_cases hzero : lit = 0
      · simp [hzero]
      · by_cases hrange : intake.reserved < lit.natAbs
        · simp [hzero, hrange, Nat.not_le_of_lt hrange]
        · simp [hzero, hrange, Nat.le_of_not_lt hrange]

@[simp] theorem Intake.limits_accept (intake : Intake) (lits : List Int) :
    (intake.accept lits).limits = intake.limits := by
  unfold Intake.accept
  split <;> rfl

@[simp] theorem Intake.reserved_accept (intake : Intake) (lits : List Int) :
    (intake.accept lits).reserved = intake.reserved := by
  unfold Intake.accept
  split <;> rfl

@[simp] theorem Intake.clauseCount_accept (intake : Intake) (lits : List Int) :
    (intake.accept lits).clauseCount = intake.clauseCount + 1 := by
  unfold Intake.accept
  split <;> rfl

theorem Intake.checkLiterals_of_checkClause {intake : Intake} {lits : List Int}
    (h : intake.checkClause lits = .ok ()) : intake.checkLiterals lits = .ok () := by
  obtain ⟨⟨⟩, hliterals, -⟩ := except_bind_eq_ok h
  exact hliterals

namespace Assignment

variable {assignment next : Assignment} {truth : Nat → Bool} {lits : List Int}

theorem getElem?_allOpen_ne {maxVar var : Nat} {value : Bool} :
    (allOpen maxVar).values[var]? ≠ some (Truth.ofBool value) := by
  rw [allOpen, Array.getElem?_replicate]
  split
  · simpa using (Truth.ofBool_ne_unknown value).symm
  · simp

theorem agreesWith_allOpen (truth : Nat → Bool) (maxVar : Nat) :
    AgreesWith truth (allOpen maxVar) :=
  fun _ _ h => absurd h getElem?_allOpen_ne

theorem extends_assign_of_not_fails {lit : Int}
    (hlit : (assignment.truth lit).fails = false) : assignment.Extends (assignment.assign lit) := by
  cases htruth : assignment.truth lit with
  | unknown => exact extends_assign htruth
  | isTrue =>
      refine ⟨by simp [assign], fun var _ => ?_⟩
      rw [getElem?_assign]
      split
      · rename_i hvar
        rw [← hvar.1, getElem?_of_truth_isTrue htruth]
      · rfl
  | isFalse =>
      rw [htruth] at hlit
      cases hlit

end Assignment

namespace ReferenceSolver

open Assignment

variable {assignment next : Assignment} {truth : Nat → Bool} {lits : List Int}

theorem truth_of_assume (h : assume lits assignment = some next)
    (hcovers : assignment.Covers lits) :
    assignment.Extends next ∧ ∀ lit ∈ lits, next.truth lit = .isTrue := by
  induction lits generalizing assignment with
  | nil =>
      cases h
      exact ⟨extends_refl next, by simp⟩
  | cons lit rest ih =>
      rw [assume] at h
      split at h
      · cases h
      · rename_i hfails
        have hextends := extends_assign_of_not_fails (by simpa using hfails)
        obtain ⟨hrest, htrue⟩ := ih h (hextends.covers fun other hother =>
          hcovers other (List.mem_cons_of_mem _ hother))
        have hlit := truth_assign (hcovers lit List.mem_cons_self).2
        refine ⟨hextends.trans hrest, List.forall_mem_cons.mpr ⟨?_, htrue⟩⟩
        rw [hrest.truth_eq (by rw [hlit]; simp), hlit]

theorem exists_assume (hagrees : AgreesWith truth assignment) (hcovers : assignment.Covers lits)
    (hlits : ∀ lit ∈ lits, LiteralHolds truth lit) :
    ∃ next, assume lits assignment = some next ∧ AgreesWith truth next := by
  induction lits generalizing assignment with
  | nil => exact ⟨assignment, rfl, hagrees⟩
  | cons lit rest ih =>
      rw [List.forall_mem_cons] at hlits
      have hfails : (assignment.truth lit).fails = false := by
        cases htruth : assignment.truth lit with
        | unknown => rfl
        | isTrue => rfl
        | isFalse =>
            exact absurd hlits.1 (hagrees.not_holds (hcovers lit List.mem_cons_self).2 htruth)
      have hextends := extends_assign_of_not_fails hfails
      obtain ⟨next, hnext, hnextAgrees⟩ := ih (hagrees.assign hlits.1)
        (hextends.covers fun other hother => hcovers other (List.mem_cons_of_mem _ hother)) hlits.2
      exact ⟨next, by rw [assume, hfails]; exact hnext, hnextAgrees⟩

theorem maxVar_modelOf (assignment : Assignment) :
    (modelOf assignment).maxVar = assignment.values.size - 1 := by
  simp [modelOf, Model.maxVar]

/-- The literals that an assignment makes true are true in its model. -/
theorem value?_modelOf {lit : Int} (hlit : lit ≠ 0) (htrue : assignment.truth lit = .isTrue) :
    (modelOf assignment).value? lit.natAbs = some (decide (0 < lit)) := by
  have hvalue := getElem?_of_truth_isTrue htrue
  obtain ⟨hlt, -⟩ := Array.getElem?_eq_some_iff.mp hvalue
  have hpos := Int.natAbs_pos.mpr hlit
  have hindex : 1 + (lit.natAbs - 1) = lit.natAbs := by omega
  have hinside : lit.natAbs - 1 < assignment.values.size - 1 := by omega
  rw [Model.value?, if_neg (by omega), modelOf, Array.getElem?_map, Array.getElem?_extract,
    Nat.min_self, if_pos hinside, hindex, hvalue]
  cases decide (0 < lit) <;> rfl

/-- What the solver has accepted: its clauses, in order, over variables that were announced. -/
structure Keeps (solver : ReferenceSolver) (accepted : List (List Int)) : Prop where
  clauses_eq : solver.clauses.toList = accepted
  inRange : ∀ clause ∈ accepted, ∀ lit ∈ clause, lit ≠ 0 ∧ lit.natAbs ≤ solver.intake.reserved

variable {solver : ReferenceSolver} {accepted : List (List Int)} {assumptions : List Int}
  {expired : Assignment → Bool}

theorem Keeps.covers (h : solver.Keeps accepted) :
    ∀ clause ∈ accepted, (allOpen solver.intake.reserved).Covers clause := by
  intro clause hclause lit hlit
  obtain ⟨hnonzero, hrange⟩ := h.inRange clause hclause lit hlit
  refine ⟨hnonzero, ?_⟩
  simpa [allOpen] using Nat.lt_succ_of_le hrange

theorem Keeps.decideUnder_correct (h : solver.Keeps accepted)
    (hassumptions : solver.intake.checkLiterals assumptions = .ok ()) :
    (solver.decideUnder assumptions expired).Correct solver.intake.reserved accepted
      assumptions := by
  have hchecked := Intake.checkLiterals_eq_ok_iff.mp hassumptions
  have hcovers : (allOpen solver.intake.reserved).Covers assumptions := by
    intro lit hlit
    refine ⟨(hchecked lit hlit).1, ?_⟩
    simpa [allOpen] using Nat.lt_succ_of_le (hchecked lit hlit).2
  have hassumed : ∀ value : Valuation, value.Models accepted assumptions →
      ∃ start, assume assumptions (allOpen solver.intake.reserved) = some start ∧
        AgreesWith (fun var => (value var).getD false) start := by
    intro value hmodels
    refine exists_assume (agreesWith_allOpen _ _) hcovers fun lit hlit => ?_
    have hvalue := Valuation.satisfies_singleton_iff.mp (hmodels.2 lit hlit)
    rw [LiteralHolds, hvalue, Option.getD_some]
  unfold decideUnder
  cases hstart : assume assumptions (allOpen solver.intake.reserved) with
  | none =>
      intro value hmodels
      obtain ⟨start, hsome, -⟩ := hassumed value hmodels
      rw [hstart] at hsome
      cases hsome
  | some start =>
      obtain ⟨hextends, htrue⟩ := truth_of_assume hstart hcovers
      rw [h.clauses_eq]
      simp only
      cases hsearch : search accepted expired start with
      | interrupted => trivial
      | exhausted =>
          intro value hmodels
          obtain ⟨found, hfound, hagrees⟩ := hassumed value hmodels
          rw [hstart, Option.some.injEq] at hfound
          subst hfound
          exact not_satisfies_of_search_exhausted hsearch
            (fun clause hclause => hextends.covers (h.covers clause hclause)) hagrees
            fun clause hclause => (hmodels.1 clause hclause).getD
      | found last =>
          obtain ⟨hlast, hsatisfied⟩ := satisfies_of_search_found hsearch
          refine ⟨?_, fun clause hclause => ?_, fun lit hlit => ?_⟩
          · rw [maxVar_modelOf, hlast.size_eq, hextends.size_eq]
            simp [allOpen]
          · obtain ⟨lit, hlit, hlitTrue⟩ := satisfies_iff.mp (hsatisfied clause hclause)
            exact ⟨lit, hlit, value?_modelOf (h.inRange clause hclause lit hlit).1 hlitTrue⟩
          · rw [Valuation.satisfies_singleton_iff]
            refine value?_modelOf (hchecked lit hlit).1 ?_
            rw [hlast.truth_eq (by rw [htrue lit hlit]; simp), htrue lit hlit]

theorem decideUnder_ne_timedOut (h : ∀ reached, expired reached = false) :
    solver.decideUnder assumptions expired ≠ .timedOut := by
  unfold decideUnder
  cases assume assumptions (allOpen solver.intake.reserved) with
  | none => simp
  | some start =>
      simp only
      cases hsearch : search solver.clauses.toList expired start with
      | found last => simp
      | exhausted => simp
      | interrupted =>
          obtain ⟨reached, hreached⟩ := exists_expired_of_search_interrupted hsearch
          rw [h reached] at hreached
          cases hreached

/-- A call from outside.  Each call of `solve` has a clock of its own. -/
inductive Call
  | reserve (maxVar : Nat)
  | addClause (lits : List Int)
  | solve (clock : Clock) (assumptions : List Int) (timeout : Option Nat)

def perform (solver : ReferenceSolver) : Call → List (List Int) × ReferenceSolver
  | .reserve maxVar => ([], ((backend .patient).reserve maxVar solver).2)
  | .addClause lits =>
    match (backend .patient).addClause lits solver with
    | (.ok (), next) => ([lits], next)
    | (.error _, next) => ([], next)
  | .solve clock assumptions timeout =>
    ([], ((backend clock).solve assumptions timeout solver).2)

def performAll (solver : ReferenceSolver) : List Call → List (List Int) × ReferenceSolver
  | [] => ([], solver)
  | call :: rest =>
    let (added, next) := solver.perform call
    let (more, last) := next.performAll rest
    (added ++ more, last)

theorem keeps_init (limits : SolverLimits) : (init limits).Keeps [] :=
  ⟨rfl, by simp⟩

theorem Keeps.reserve (h : solver.Keeps accepted) (maxVar : Nat) :
    (solver.reserve maxVar).Keeps accepted := by
  refine ⟨h.clauses_eq, fun clause hclause lit hlit => ?_⟩
  obtain ⟨hnonzero, hrange⟩ := h.inRange clause hclause lit hlit
  exact ⟨hnonzero, hrange.trans (Nat.le_max_left _ _)⟩

theorem Keeps.accept (h : solver.Keeps accepted) {lits : List Int}
    (hcheck : solver.intake.checkClause lits = .ok ()) :
    (solver.accept lits).Keeps (accepted ++ [lits]) := by
  have hlits := Intake.checkLiterals_eq_ok_iff.mp (Intake.checkLiterals_of_checkClause hcheck)
  refine ⟨by rw [ReferenceSolver.accept, Array.toList_push, h.clauses_eq], ?_⟩
  rw [List.forall_mem_append, List.forall_mem_singleton, ReferenceSolver.accept,
    Intake.reserved_accept]
  exact ⟨h.inRange, hlits⟩

theorem Keeps.perform (h : solver.Keeps accepted) (call : Call) :
    (solver.perform call).2.Keeps (accepted ++ (solver.perform call).1) := by
  cases call with
  | reserve maxVar =>
      simp only [ReferenceSolver.perform, backend, SolverM.checked, List.append_nil]
      cases solver.intake.checkReserve maxVar with
      | error error => exact h
      | ok _ => exact h.reserve maxVar
  | addClause lits =>
      simp only [ReferenceSolver.perform, backend, SolverM.checked]
      cases hcheck : solver.intake.checkClause lits with
      | error error => simpa using h
      | ok _ => exact h.accept hcheck
  | solve clock assumptions timeout =>
      simp only [ReferenceSolver.perform, backend, SolverM.checked, List.append_nil]
      cases solver.intake.checkLiterals assumptions with
      | error error => exact h
      | ok checked =>
          cases checked
          exact ⟨h.clauses_eq, h.inRange⟩

theorem Keeps.performAll (h : solver.Keeps accepted) (calls : List Call) :
    (solver.performAll calls).2.Keeps (accepted ++ (solver.performAll calls).1) := by
  induction calls generalizing solver accepted with
  | nil => simpa [ReferenceSolver.performAll] using h
  | cons call rest ih =>
      have hrest := ih (h.perform call)
      rw [List.append_assoc] at hrest
      exact hrest

theorem solve_eq (clock : Clock) (timeout : Option Nat)
    (hassumptions : solver.intake.checkLiterals assumptions = .ok ()) :
    (backend clock).solve assumptions timeout solver =
      (.ok (solver.solve clock assumptions timeout).1,
        (solver.solve clock assumptions timeout).2) := by
  simp only [backend, SolverM.checked, hassumptions]

theorem checkLiterals_of_solve {clock : Clock} {timeout : Option Nat} {result : SolveResult}
    {next : ReferenceSolver}
    (h : (backend clock).solve assumptions timeout solver = (.ok result, next)) :
    solver.intake.checkLiterals assumptions = .ok () ∧
      (solver.solve clock assumptions timeout).1 = result := by
  simp only [backend, SolverM.checked] at h
  cases hcheck : solver.intake.checkLiterals assumptions with
  | error error =>
      rw [hcheck] at h
      cases h
  | ok checked =>
      rw [hcheck] at h
      cases h
      exact ⟨rfl, rfl⟩

theorem Keeps.solve_correct (h : solver.Keeps accepted)
    (hassumptions : solver.intake.checkLiterals assumptions = .ok ()) (clock : Clock)
    (timeout : Option Nat) :
    (solver.solve clock assumptions timeout).1.Correct solver.intake.reserved accepted
      assumptions :=
  h.decideUnder_correct hassumptions

theorem solve_none_ne_timedOut (clock : Clock) :
    (solver.solve clock assumptions none).1 ≠ .timedOut :=
  decideUnder_ne_timedOut fun _ => rfl

end ReferenceSolver

/-- Two right answers to questions with the same models are the same. -/
theorem SolveResult.Correct.eq_unsat {numVars numVars' : Nat} {clauses clauses' : List (List Int)}
    {assumptions assumptions' : List Int} {result result' : SolveResult}
    (h : result.Correct numVars clauses assumptions)
    (h' : result'.Correct numVars' clauses' assumptions')
    (hmodels : ∀ value : Valuation,
      value.Models clauses assumptions ↔ value.Models clauses' assumptions')
    (hunsat : result = .unsat) (hanswered : result' ≠ .timedOut) : result' = .unsat := by
  subst hunsat
  cases result' with
  | sat model => exact absurd ((hmodels _).mpr h'.2) (h _)
  | unsat => rfl
  | timedOut => exact absurd rfl hanswered

/-- After any calls, rejected ones included, the reference solver decides exactly the clauses that
it accepted together with the assumptions of the call; how it was used before does not matter. -/
theorem reference_solver_decides (limits : SolverLimits) (calls : List ReferenceSolver.Call)
    {accepted : List (List Int)} {solver : ReferenceSolver}
    (hcalls : (ReferenceSolver.init limits).performAll calls = (accepted, solver))
    {assumptions : List Int}
    (hassumptions : solver.intake.checkLiterals assumptions = .ok ()) (clock : Clock) :
    (∃ result next,
      (ReferenceSolver.backend clock).solve assumptions none solver = (.ok result, next) ∧
      result ≠ .timedOut ∧
      result.Correct ((ReferenceSolver.backend clock).numVars solver) accepted assumptions) ∧
    (∀ timeout, ∃ result next,
      (ReferenceSolver.backend clock).solve assumptions timeout solver = (.ok result, next) ∧
      result.Correct ((ReferenceSolver.backend clock).numVars solver) accepted assumptions) ∧
    ∀ (limits' : SolverLimits) (calls' : List ReferenceSolver.Call) (accepted' : List (List Int))
      (solver' : ReferenceSolver) (assumptions' : List Int) (clock' : Clock)
      (timeout timeout' : Option Nat) (result result' : SolveResult)
      (next next' : ReferenceSolver),
      (ReferenceSolver.init limits').performAll calls' = (accepted', solver') →
      (∀ clause, clause ∈ accepted ↔ clause ∈ accepted') →
      (∀ lit, lit ∈ assumptions ↔ lit ∈ assumptions') →
      (ReferenceSolver.backend clock).solve assumptions timeout solver = (.ok result, next) →
      (ReferenceSolver.backend clock').solve assumptions' timeout' solver' =
        (.ok result', next') →
      result ≠ .timedOut → result' ≠ .timedOut → (result = .unsat ↔ result' = .unsat) := by
  have hkeeps : solver.Keeps accepted := by
    have hrun := (ReferenceSolver.keeps_init limits).performAll calls
    rw [hcalls] at hrun
    exact hrun
  refine ⟨?_, fun timeout => ?_, ?_⟩
  · exact ⟨_, _, ReferenceSolver.solve_eq clock none hassumptions,
      ReferenceSolver.solve_none_ne_timedOut clock, hkeeps.solve_correct hassumptions clock none⟩
  · exact ⟨_, _, ReferenceSolver.solve_eq clock timeout hassumptions,
      hkeeps.solve_correct hassumptions clock timeout⟩
  · intro limits' calls' accepted' solver' assumptions' clock' timeout timeout' result result'
      next next' hcalls' hclauses hlits hsolve hsolve' hanswered hanswered'
    have hkeeps' : solver'.Keeps accepted' := by
      have hrun := (ReferenceSolver.keeps_init limits').performAll calls'
      rw [hcalls'] at hrun
      exact hrun
    obtain ⟨-, hresult⟩ := ReferenceSolver.checkLiterals_of_solve hsolve
    obtain ⟨hassumptions', hresult'⟩ := ReferenceSolver.checkLiterals_of_solve hsolve'
    have hcorrect := hresult ▸ hkeeps.solve_correct hassumptions clock timeout
    have hcorrect' := hresult' ▸ hkeeps'.solve_correct hassumptions' clock' timeout'
    have hmodels : ∀ value : Valuation,
        value.Models accepted assumptions ↔ value.Models accepted' assumptions' := by
      intro value
      simp only [Valuation.Models, hclauses, hlits]
    exact ⟨fun hunsat => hcorrect.eq_unsat hcorrect' hmodels hunsat hanswered',
      fun hunsat => hcorrect'.eq_unsat hcorrect (fun value => (hmodels value).symm) hunsat hanswered⟩

def fewCalls : List ReferenceSolver.Call :=
  [.reserve 2, .addClause [1, 2], .addClause [3], .solve .patient [-2] (some 0)]

theorem reference_solver_decides_fewCalls :
    ∃ solver, (ReferenceSolver.init {}).performAll fewCalls = ([[1, 2]], solver) ∧
      solver.intake.checkLiterals [-1] = .ok () ∧
      ∃ result next,
        (ReferenceSolver.backend .patient).solve [-1] none solver = (.ok result, next) ∧
        result ≠ .timedOut ∧ result.Correct 2 [[1, 2]] [-1] := by
  refine ⟨((ReferenceSolver.init {}).performAll fewCalls).2, rfl, rfl, ?_⟩
  exact (reference_solver_decides {} fewCalls rfl rfl .patient).1

end BoundedPlanning
