import BoundedPlanning.Proofs.Decoding
import BoundedPlanning.Proofs.ReferenceSolver
import BoundedPlanning.Solver.Scripted

namespace BoundedPlanning

/-- The answer decides the clauses under the assumptions, by a model over the announced variables
or because there is none. -/
def SolveResult.Decides (numVars : Nat) (clauses : List (List Int)) (assumptions : List Int) :
    SolveResult → Prop
  | .sat model =>
    (∀ var ∈ model.trueVars, var ≤ numVars) ∧
      Valuation.Models model.value? clauses assumptions
  | .unsat => ∀ value : Valuation, ¬ value.Models clauses assumptions
  | .timedOut => False

theorem SolveResult.Correct.decides {numVars : Nat} {clauses : List (List Int)}
    {assumptions : List Int} {result : SolveResult}
    (h : result.Correct numVars clauses assumptions) (hanswered : result ≠ .timedOut) :
    result.Decides numVars clauses assumptions := by
  cases result with
  | sat model =>
      obtain ⟨hmaxVar, hmodels⟩ := h
      exact ⟨Model.trueVars_le hmaxVar, hmodels⟩
  | unsat => exact h
  | timedOut => exact absurd rfl hanswered

/-- The solver keeps books: an intake, and the clauses accepted so far.  It reports what the intake
reports, takes what the intake lets pass, and decides what it has taken within the timeout. -/
structure Backend.KeepsBooks {σ : Type} (backend : Backend σ) (timeout : Option Nat)
    (books : σ → Intake → List (List Int) → Prop) : Prop where
  limits_eq : ∀ {solver intake accepted}, books solver intake accepted →
    backend.limits solver = intake.limits
  numVars_eq : ∀ {solver intake accepted}, books solver intake accepted →
    backend.numVars solver = intake.reserved
  numClauses_eq : ∀ {solver intake accepted}, books solver intake accepted →
    backend.numClauses solver = intake.clauseCount
  reserve : ∀ {solver intake accepted}, books solver intake accepted → ∀ maxVar,
    intake.checkReserve maxVar = .ok () →
      ∃ next, backend.reserve maxVar solver = (.ok (), next) ∧
        books next (intake.reserve maxVar) accepted
  addClause : ∀ {solver intake accepted}, books solver intake accepted → ∀ lits,
    intake.checkClause lits = .ok () →
      ∃ next, backend.addClause lits solver = (.ok (), next) ∧
        books next (intake.accept lits) (accepted ++ [lits])
  solve : ∀ {solver intake accepted}, books solver intake accepted → ∀ assumptions,
    intake.checkLiterals assumptions = .ok () →
      ∃ result next, backend.solve assumptions timeout solver = (.ok result, next) ∧
        books next intake accepted ∧ result.Decides intake.reserved accepted assumptions

def SolverCall.clause? : SolverCall → Option (List Int)
  | .addClause lits => some lits
  | _ => none

def submissionCalls (maxVar : Nat) (clauses : List Clause) : List SolverCall :=
  .reserve maxVar :: clauses.map fun clause => .addClause clause.literals

/-- The solver takes every reservation and clause that its intake lets pass.  Whatever else is
recorded of it, the calls are. -/
structure Backend.Takes {σ : Type} (backend : Backend σ)
    (record : σ → Intake → List SolverCall → Prop) : Prop where
  limits_eq : ∀ {solver intake calls}, record solver intake calls →
    backend.limits solver = intake.limits
  numClauses_eq : ∀ {solver intake calls}, record solver intake calls →
    backend.numClauses solver = intake.clauseCount
  reserve : ∀ {solver intake calls}, record solver intake calls → ∀ maxVar,
    intake.checkReserve maxVar = .ok () →
      ∃ next, backend.reserve maxVar solver = (.ok (), next) ∧
        record next (intake.reserve maxVar) (calls ++ [.reserve maxVar])
  addClause : ∀ {solver intake calls}, record solver intake calls → ∀ lits,
    intake.checkClause lits = .ok () →
      ∃ next, backend.addClause lits solver = (.ok (), next) ∧
        record next (intake.accept lits) (calls ++ [.addClause lits])

theorem filterMap_submissionCalls (maxVar : Nat) (clauses : List Clause) :
    (submissionCalls maxVar clauses).filterMap SolverCall.clause? =
      clauses.map Clause.literals := by
  rw [submissionCalls, List.filterMap_cons_none rfl, List.filterMap_map]
  exact congrFun List.filterMap_eq_map clauses

def Noted {σ : Type} (books : σ → Intake → List (List Int) → Prop) (solver : σ) (intake : Intake)
    (calls : List SolverCall) : Prop :=
  books solver intake (calls.filterMap SolverCall.clause?)

theorem Backend.KeepsBooks.takes {σ : Type} {backend : Backend σ} {timeout : Option Nat}
    {books : σ → Intake → List (List Int) → Prop} (h : backend.KeepsBooks timeout books) :
    backend.Takes (Noted books) where
  limits_eq hbooks := h.limits_eq hbooks
  numClauses_eq hbooks := h.numClauses_eq hbooks
  reserve hbooks maxVar hcheck := by
    obtain ⟨next, hnext, hnextBooks⟩ := h.reserve hbooks maxVar hcheck
    refine ⟨next, hnext, ?_⟩
    rw [Noted, List.filterMap_append, List.filterMap_cons_none rfl, List.filterMap_nil, List.append_nil]
    exact hnextBooks
  addClause hbooks lits hcheck := by
    obtain ⟨next, hnext, hnextBooks⟩ := h.addClause hbooks lits hcheck
    refine ⟨next, hnext, ?_⟩
    rw [Noted, List.filterMap_append]
    exact hnextBooks

namespace ReferenceSolver

def Books (solver : ReferenceSolver) (intake : Intake) (accepted : List (List Int)) : Prop :=
  solver.intake = intake ∧ solver.Keeps accepted

theorem books_init (limits : SolverLimits) : (init limits).Books (.init limits) [] :=
  ⟨rfl, keeps_init limits⟩

/-- While no budget is used up, the solver decides. -/
theorem keepsBooks_of_patient {clock : Clock} {timeout : Option Nat}
    (hpatient : ∀ assignment, (timeout.any fun budget => clock budget assignment) = false) :
    (backend clock).KeepsBooks timeout Books where
  limits_eq h := congrArg Intake.limits h.1
  numVars_eq h := congrArg Intake.reserved h.1
  numClauses_eq h := congrArg Intake.clauseCount h.1
  reserve := by
    rintro solver _ accepted ⟨rfl, hkeeps⟩ maxVar hcheck
    refine ⟨solver.reserve maxVar, ?_, rfl, hkeeps.reserve maxVar⟩
    simp only [backend, SolverM.checked, hcheck]
  addClause := by
    rintro solver _ accepted ⟨rfl, hkeeps⟩ lits hcheck
    refine ⟨solver.accept lits, ?_, rfl, hkeeps.accept hcheck⟩
    simp only [backend, SolverM.checked, hcheck]
  solve := by
    rintro solver _ accepted ⟨rfl, hkeeps⟩ assumptions hcheck
    refine ⟨_, _, solve_eq clock timeout hcheck, ⟨rfl, hkeeps.clauses_eq, hkeeps.inRange⟩, ?_⟩
    exact (hkeeps.solve_correct hcheck clock timeout).decides (decideUnder_ne_timedOut hpatient)

theorem keepsBooks_backend (clock : Clock) : (backend clock).KeepsBooks none Books :=
  keepsBooks_of_patient fun _ => rfl

end ReferenceSolver

/-- The units that the intake remembers were accepted. -/
def Intake.Remembers (intake : Intake) (accepted : List (List Int)) : Prop :=
  ∀ var value, intake.units[var]? = some value → [literal var value] ∈ accepted

namespace Intake

variable {intake : Intake} {accepted : List (List Int)} {lits : List Int}

theorem remembers_init (limits : SolverLimits) : (Intake.init limits).Remembers [] := by
  intro var value h
  simp [init] at h

theorem literal_natAbs (lit : Int) : literal lit.natAbs (decide (0 < lit)) = lit := by
  unfold literal
  by_cases hpos : 0 < lit
  · rw [decide_eq_true hpos, if_pos rfl]
    omega
  · rw [decide_eq_false hpos, if_neg Bool.false_ne_true]
    omega

theorem Remembers.accept (h : intake.Remembers accepted) :
    (intake.accept lits).Remembers (accepted ++ [lits]) := by
  intro var value hvalue
  rw [List.mem_append, List.mem_singleton]
  unfold Intake.accept at hvalue
  split at hvalue
  · rename_i lit
    rw [Std.HashMap.getElem?_insert] at hvalue
    split at hvalue
    · rename_i hvar
      rw [← eq_of_beq hvar, ← Option.some.inj hvalue, literal_natAbs]
      exact Or.inr rfl
    · exact Or.inl (h var value hvalue)
  · exact Or.inl (h var value hvalue)

theorem Remembers.opposes_eq_false (h : intake.Remembers accepted) {value : Valuation}
    (haccepted : ∀ clause ∈ accepted, value.Satisfies clause) {lit : Int} (hlit : lit ≠ 0)
    (hsatisfied : value.Satisfies [lit]) : intake.opposes lit = false := by
  rw [← Bool.not_eq_true]
  intro hopposes
  have hunit := h _ _ (eq_of_beq hopposes)
  have hopposite := haccepted _ hunit
  rw [Valuation.satisfies_cons_literal (Int.natAbs_pos.mpr hlit),
    Valuation.satisfies_singleton_iff.mp hsatisfied] at hopposite
  simp at hopposite

/-- Clauses that are satisfied together do not contradict each other. -/
theorem Remembers.checkClause (h : intake.Remembers accepted) {value : Valuation}
    (haccepted : ∀ clause ∈ accepted, value.Satisfies clause) (hlits : value.Satisfies lits)
    (hrange : ∀ lit ∈ lits, lit ≠ 0 ∧ lit.natAbs ≤ intake.reserved)
    (hroom : intake.clauseCount < intake.limits.maxClauses) :
    intake.checkClause lits = .ok () := by
  unfold Intake.checkClause
  rw [checkLiterals_eq_ok_iff.mpr hrange]
  cases lits with
  | nil => exact absurd hlits Valuation.not_satisfies_nil
  | cons lit rest =>
      have hopposes : (rest.isEmpty && intake.opposes lit) = false := by
        cases rest with
        | nil =>
            exact h.opposes_eq_false haccepted (hrange lit List.mem_cons_self).1 hlits
        | cons other rest => rfl
      simp only [bind, Except.bind, if_neg (Nat.not_le_of_lt hroom), hopposes]
      rfl

end Intake

end BoundedPlanning
