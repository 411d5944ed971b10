import BoundedPlanning.Proofs.CallProtocol

namespace BoundedPlanning

def SolverCall.reservation? : SolverCall → Option Nat
  | .reserve maxVar => some maxVar
  | _ => none

def acceptedCalls (exchanges : List Exchange) : List SolverCall :=
  (exchanges.filter fun exchange => exchange.reply.isOk).map Exchange.call

theorem acceptedCalls_concat_ok (exchanges : List Exchange) (call : SolverCall)
    (answer : Option SolveResult) :
    acceptedCalls (exchanges ++ [⟨call, .ok answer⟩]) = acceptedCalls exchanges ++ [call] := by
  simp [acceptedCalls, Except.isOk, Except.toBool]

theorem acceptedCalls_concat_error (exchanges : List Exchange) (call : SolverCall)
    (error : SolverError) :
    acceptedCalls (exchanges ++ [⟨call, .error error⟩]) = acceptedCalls exchanges := by
  simp [acceptedCalls, Except.isOk, Except.toBool]

def Intake.Knows (intake : Intake) (accepted : List (List Int)) : Prop :=
  ∀ lit, [lit] ∈ accepted → intake.units[lit.natAbs]? = some (decide (0 < lit))

namespace Intake

variable {intake : Intake} {accepted : List (List Int)} {lits : List Int} {lit : Int}

theorem decide_neg_pos (hlit : lit ≠ 0) : decide (0 < -lit) = !decide (0 < lit) := by
  rw [← decide_not, decide_eq_decide]
  omega

theorem Knows.opposes (h : intake.Knows accepted) (hlit : lit ≠ 0) (hopposite : [-lit] ∈ accepted) :
    intake.opposes lit = true := by
  have hunit := h (-lit) hopposite
  rw [Int.natAbs_neg, decide_neg_pos hlit] at hunit
  rw [Intake.opposes, hunit, beq_self_eq_true]

theorem Knows.not_mem_neg (h : intake.Knows accepted) (hlit : lit ≠ 0) (hunit : [lit] ∈ accepted) :
    [-lit] ∉ accepted := by
  intro hopposite
  have hopposes := h.opposes hlit hopposite
  rw [Intake.opposes, h lit hunit] at hopposes
  simp at hopposes

theorem Knows.accept (h : intake.Knows accepted)
    (hopposes : ∀ lit, lits = [lit] → intake.opposes lit = false) :
    (intake.accept lits).Knows (accepted ++ [lits]) := by
  intro other hother
  rw [List.mem_append, List.mem_singleton] at hother
  unfold Intake.accept
  split
  · rename_i lit
    rw [Std.HashMap.getElem?_insert]
    by_cases hvar : lit.natAbs = other.natAbs
    · rw [if_pos (beq_iff_eq.mpr hvar), Option.some.injEq]
      rcases hother with hother | hother
      · have hnot := hopposes lit rfl
        rw [Intake.opposes, hvar, h other hother] at hnot
        rw [eq_comm]
        simpa using hnot
      · cases hother
        rfl
    · rw [if_neg (by simpa using hvar)]
      rcases hother with hother | hother
      · exact h other hother
      · cases hother
        exact absurd rfl hvar
  · rename_i hunit
    rcases hother with hother | hother
    · exact h other hother
    · exact absurd hother.symm (hunit other)

theorem checkClause_of_checkLiterals_eq_error {error : SolverError}
    (h : intake.checkLiterals lits = .error error) : intake.checkClause lits = .error error := by
  unfold Intake.checkClause
  rw [h]
  rfl

theorem checkClause_cons {rest : List Int} (h : intake.checkLiterals (lit :: rest) = .ok ()) :
    intake.checkClause (lit :: rest) =
      if intake.limits.maxClauses ≤ intake.clauseCount then
        .error (.limitExceeded .clauses (intake.clauseCount + 1) intake.limits.maxClauses)
      else if rest.isEmpty && intake.opposes lit then .error (.contradiction (.opposingUnit lit))
      else .ok () := by
  unfold Intake.checkClause
  rw [h]
  by_cases hroom : intake.limits.maxClauses ≤ intake.clauseCount
  · simp only [if_pos hroom]
    rfl
  · simp only [if_neg hroom]
    split <;> rfl

theorem of_checkClause_eq_ok (h : intake.checkClause lits = .ok ()) :
    lits ≠ [] ∧ intake.clauseCount < intake.limits.maxClauses ∧
      ∀ lit, lits = [lit] → intake.opposes lit = false := by
  have hliterals := checkLiterals_of_checkClause h
  cases lits with
  | nil => cases h
  | cons lit rest =>
      rw [checkClause_cons hliterals] at h
      split at h
      · cases h
      · rename_i hroom
        refine ⟨List.cons_ne_nil lit rest, Nat.lt_of_not_le hroom, fun other hother => ?_⟩
        cases hother
        split at h
        · cases h
        · rename_i hopposes
          simpa using hopposes

theorem checkLiterals_ne_contradiction (cause : Contradiction) :
    intake.checkLiterals lits ≠ .error (.contradiction cause) := by
  induction lits with
  | nil => simp [checkLiterals]
  | cons lit rest ih =>
      rw [checkLiterals]
      split
      · simp
      · split
        · simp
        · exact ih

/-- Only a clause without literals or a unit clause is ever called contradictory. -/
theorem of_checkClause_eq_contradiction {cause : Contradiction}
    (h : intake.checkClause lits = .error (.contradiction cause)) :
    lits = [] ∨ ∃ lit, lits = [lit] ∧ lit ≠ 0 ∧ intake.opposes lit = true := by
  cases hliterals : intake.checkLiterals lits with
  | error error =>
      rw [checkClause_of_checkLiterals_eq_error hliterals] at h
      cases h
      exact absurd hliterals (checkLiterals_ne_contradiction cause)
  | ok _ =>
      cases lits with
      | nil => exact Or.inl rfl
      | cons lit rest =>
          have hnonzero := (checkLiterals_eq_ok_iff.mp hliterals lit List.mem_cons_self).1
          rw [checkClause_cons hliterals] at h
          split at h
          · cases h
          · split at h
            · rename_i hopposes
              rw [Bool.and_eq_true, List.isEmpty_iff] at hopposes
              obtain ⟨rfl, hopposes⟩ := hopposes
              exact Or.inr ⟨lit, rfl, hnonzero, hopposes⟩
            · cases h

/-- A clause that is called contradictory cannot hold together with the accepted ones. -/
theorem Remembers.not_models (h : intake.Remembers accepted) {cause : Contradiction}
    (hcheck : intake.checkClause lits = .error (.contradiction cause)) (value : Valuation) :
    ¬ value.Models (accepted ++ [lits]) [] := by
  rintro ⟨hmodels, -⟩
  rw [List.forall_mem_append, List.forall_mem_singleton] at hmodels
  obtain ⟨haccepted, hlits⟩ := hmodels
  rcases of_checkClause_eq_contradiction hcheck with rfl | ⟨lit, rfl, hnonzero, hopposes⟩
  · exact Valuation.not_satisfies_nil hlits
  · rw [h.opposes_eq_false haccepted hnonzero hlits] at hopposes
    cases hopposes

end Intake

namespace ReferenceSolver

def Call.solverCall : Call → SolverCall
  | .reserve maxVar => .reserve maxVar
  | .addClause lits => .addClause lits
  | .solve _ assumptions timeout => .solve assumptions timeout

def Call.clock : Call → Clock
  | .solve clock _ _ => clock
  | _ => .patient

def respond (solver : ReferenceSolver) (call : Call) :
    Except SolverError (Option SolveResult) × ReferenceSolver :=
  (backend call.clock).reply call.solverCall solver

def respondAll (solver : ReferenceSolver) : List Call → List Exchange × ReferenceSolver
  | [] => ([], solver)
  | call :: rest =>
    let (result, next) := solver.respond call
    let (later, last) := next.respondAll rest
    (⟨call.solverCall, result⟩ :: later, last)

/-- What the solver holds follows from the reservations and clauses that it has accepted. -/
structure Consistent (limits : SolverLimits) (reservations : List Nat)
    (accepted : List (List Int)) (solver : ReferenceSolver) : Prop where
  keeps : solver.Keeps accepted
  limits_eq : solver.intake.limits = limits
  reserved_eq : solver.intake.reserved = reservations.foldl max 0
  reserved_le : solver.intake.reserved ≤ limits.maxVars
  clauseCount_eq : solver.intake.clauseCount = accepted.length
  clauseCount_le : solver.intake.clauseCount ≤ limits.maxClauses
  ne_nil : ∀ clause ∈ accepted, clause ≠ []
  remembers : solver.intake.Remembers accepted
  knows : solver.intake.Knows accepted

variable {limits : SolverLimits} {reservations : List Nat} {accepted : List (List Int)}
  {solver next : ReferenceSolver}

theorem consistent_init (limits : SolverLimits) : Consistent limits [] [] (init limits) where
  keeps := keeps_init limits
  limits_eq := rfl
  reserved_eq := rfl
  reserved_le := Nat.zero_le _
  clauseCount_eq := rfl
  clauseCount_le := Nat.zero_le _
  ne_nil := by simp
  remembers := Intake.remembers_init limits
  knows := by simp [Intake.Knows]

theorem Consistent.reserve (h : solver.Consistent limits reservations accepted) {maxVar : Nat}
    (hcheck : solver.intake.checkReserve maxVar = .ok ()) :
    (solver.reserve maxVar).Consistent limits (reservations ++ [maxVar]) accepted := by
  have hmaxVar : maxVar ≤ limits.maxVars := by
    rw [Intake.checkReserve, h.limits_eq] at hcheck
    split at hcheck
    · cases hcheck
    · omega
  exact { h with
    keeps := h.keeps.reserve maxVar
    reserved_eq := by
      rw [List.foldl_append, ← h.reserved_eq]
      rfl
    reserved_le := Nat.max_le.mpr ⟨h.reserved_le, hmaxVar⟩ }

theorem Consistent.accept (h : solver.Consistent limits reservations accepted) {lits : List Int}
    (hcheck : solver.intake.checkClause lits = .ok ()) :
    (solver.accept lits).Consistent limits reservations (accepted ++ [lits]) := by
  obtain ⟨hne, hroom, hopposes⟩ := Intake.of_checkClause_eq_ok hcheck
  rw [h.limits_eq] at hroom
  have hreserved := Intake.reserved_accept solver.intake lits
  have hcount := Intake.clauseCount_accept solver.intake lits
  exact {
    keeps := h.keeps.accept hcheck
    limits_eq := (Intake.limits_accept _ _).trans h.limits_eq
    reserved_eq := hreserved.trans h.reserved_eq
    reserved_le := hreserved.trans_le h.reserved_le
    clauseCount_eq := by
      rw [ReferenceSolver.accept, hcount, h.clauseCount_eq, List.length_append,
        List.length_singleton]
    clauseCount_le := hcount.trans_le hroom
    ne_nil := by
      rw [List.forall_mem_append, List.forall_mem_singleton]
      exact ⟨h.ne_nil, hne⟩
    remembers := h.remembers.accept
    knows := h.knows.accept hopposes }

theorem Consistent.answer (h : solver.Consistent limits reservations accepted) :
    { solver with solveCount := solver.solveCount + 1 }.Consistent limits reservations accepted :=
  { h with keeps := ⟨h.keeps.clauses_eq, h.keeps.inRange⟩ }

theorem respond_reserve (solver : ReferenceSolver) (maxVar : Nat) :
    solver.respond (.reserve maxVar) =
      match solver.intake.checkReserve maxVar with
      | .ok () => (.ok none, solver.reserve maxVar)
      | .error error => (.error error, solver) := by
  simp only [respond, Call.solverCall, Backend.reply, backend, SolverM.checked]
  cases solver.intake.checkReserve maxVar <;> rfl

theorem respond_addClause (solver : ReferenceSolver) (lits : List Int) :
    solver.respond (.addClause lits) =
      match solver.intake.checkClause lits with
      | .ok () => (.ok none, solver.accept lits)
      | .error error => (.error error, solver) := by
  simp only [respond, Call.solverCall, Backend.reply, backend, SolverM.checked]
  cases solver.intake.checkClause lits <;> rfl

theorem respond_solve (solver : ReferenceSolver) (clock : Clock) (assumptions : List Int)
    (timeout : Option Nat) :
    solver.respond (.solve clock assumptions timeout) =
      match solver.intake.checkLiterals assumptions with
      | .ok () =>
        (.ok (some (solver.solve clock assumptions timeout).1),
          { solver with solveCount := solver.solveCount + 1 })
      | .error error => (.error error, solver) := by
  simp only [respond, Call.solverCall, Call.clock, Backend.reply, backend, SolverM.checked]
  cases solver.intake.checkLiterals assumptions <;> rfl

theorem respond_cases (solver : ReferenceSolver) (call : Call) :
    (∃ error, solver.respond call = (.error error, solver)) ∨
      (∃ maxVar, call = .reserve maxVar ∧ solver.intake.checkReserve maxVar = .ok () ∧
        solver.respond call = (.ok none, solver.reserve maxVar)) ∨
      (∃ lits, call = .addClause lits ∧ solver.intake.checkClause lits = .ok () ∧
        solver.respond call = (.ok none, solver.accept lits)) ∨
      ∃ clock assumptions timeout answer, call = .solve clock assumptions timeout ∧
        solver.respond call =
          (.ok (some answer), { solver with solveCount := solver.solveCount + 1 }) := by
  cases call with
  | reserve maxVar =>
      rw [respond_reserve]
      cases hcheck : solver.intake.checkReserve maxVar with
      | error error => exact .inl ⟨error, rfl⟩
      | ok _ => exact .inr (.inl ⟨maxVar, rfl, hcheck, rfl⟩)
  | addClause lits =>
      rw [respond_addClause]
      cases hcheck : solver.intake.checkClause lits with
      | error error => exact .inl ⟨error, rfl⟩
      | ok _ => exact .inr (.inr (.inl ⟨lits, rfl, hcheck, rfl⟩))
  | solve clock assumptions timeout =>
      rw [respond_solve]
      cases hcheck : solver.intake.checkLiterals assumptions with
      | error error => exact .inl ⟨error, rfl⟩
      | ok _ => exact .inr (.inr (.inr ⟨clock, assumptions, timeout, _, rfl, rfl⟩))

def Reflects (limits : SolverLimits) (calls : List SolverCall) (solver : ReferenceSolver) : Prop :=
  solver.Consistent limits (calls.filterMap SolverCall.reservation?)
    (calls.filterMap SolverCall.clause?)

theorem reflects_init (limits : SolverLimits) :
    (init limits).Reflects limits (acceptedCalls []) :=
  consistent_init limits

theorem Reflects.respond {exchanges : List Exchange}
    (h : solver.Reflects limits (acceptedCalls exchanges)) (call : Call)
    {result : Except SolverError (Option SolveResult)}
    (hrespond : solver.respond call = (result, next)) :
    next.Reflects limits
      (acceptedCalls (exchanges ++ [Exchange.mk call.solverCall result])) := by
  rw [Reflects] at h
  obtain ⟨error, heq⟩ | ⟨maxVar, rfl, hcheck, heq⟩ | ⟨lits, rfl, hcheck, heq⟩ |
    ⟨clock, assumptions, timeout, answer, rfl, heq⟩ := solver.respond_cases call
  all_goals cases heq.symm.trans hrespond
  · rw [acceptedCalls_concat_error]
    exact h
  all_goals
    rw [acceptedCalls_concat_ok, Reflects, List.filterMap_append, List.filterMap_append]
  · simpa [SolverCall.reservation?, SolverCall.clause?, Call.solverCall, List.filterMap_cons]
      using h.reserve hcheck
  · simpa [SolverCall.reservation?, SolverCall.clause?, Call.solverCall, List.filterMap_cons]
      using h.accept hcheck
  · simpa [SolverCall.reservation?, SolverCall.clause?, Call.solverCall, List.filterMap_cons]
      using h.answer

theorem Reflects.respondAll {exchanges : List Exchange}
    (h : solver.Reflects limits (acceptedCalls exchanges)) (calls : List Call) :
    (solver.respondAll calls).2.Reflects limits
      (acceptedCalls (exchanges ++ (solver.respondAll calls).1)) := by
  induction calls generalizing solver exchanges with
  | nil =>
      rw [ReferenceSolver.respondAll, List.append_nil]
      exact h
  | cons call rest ih =>
      have hrest := ih (h.respond call rfl)
      rw [List.append_assoc] at hrest
      exact hrest

theorem eq_of_respond_eq_error {call : Call} {error : SolverError}
    (h : solver.respond call = (.error error, next)) : next = solver := by
  obtain ⟨_, heq⟩ | ⟨_, _, _, heq⟩ | ⟨_, _, _, heq⟩ | ⟨_, _, _, _, _, heq⟩ :=
    solver.respond_cases call
  all_goals cases heq.symm.trans h
  rfl

theorem eq_of_respond_solve_eq_ok {clock : Clock} {assumptions : List Int} {timeout : Option Nat}
    {answer : Option SolveResult}
    (h : solver.respond (.solve clock assumptions timeout) = (.ok answer, next)) :
    next = { solver with solveCount := solver.solveCount + 1 } := by
  rw [respond_solve] at h
  split at h
  · exact (congrArg Prod.snd h).symm
  · cases h

theorem checkClause_of_respond_eq_error {lits : List Int} {error : SolverError}
    (h : solver.respond (.addClause lits) = (.error error, next)) :
    solver.intake.checkClause lits = .error error := by
  rw [respond_addClause] at h
  split at h
  · cases h
  · rename_i hcheck
    cases h
    exact hcheck

/-- A unit that opposes a stored one is called contradictory if there is room for a clause. -/
theorem Consistent.respond_opposing (h : solver.Consistent limits reservations accepted) {lit : Int}
    (hopposite : [-lit] ∈ accepted) (hroom : solver.intake.clauseCount < limits.maxClauses) :
    solver.respond (.addClause [lit]) =
      (.error (.contradiction (.opposingUnit lit)), solver) := by
  obtain ⟨hnonzero, hrange⟩ := h.keeps.inRange _ hopposite (-lit) List.mem_cons_self
  rw [Int.natAbs_neg] at hrange
  rw [ne_eq, neg_eq_zero] at hnonzero
  have hliterals : solver.intake.checkLiterals [lit] = .ok () := by
    rw [Intake.checkLiterals_eq_ok_iff, List.forall_mem_singleton]
    exact ⟨hnonzero, hrange⟩
  rw [← h.limits_eq] at hroom
  rw [respond_addClause, Intake.checkClause_cons hliterals, if_neg (Nat.not_le_of_lt hroom),
    h.knows.opposes hnonzero hopposite]
  rfl

theorem reserved_le_respond (solver : ReferenceSolver) (call : Call) :
    solver.intake.reserved ≤ (solver.respond call).2.intake.reserved := by
  obtain ⟨_, heq⟩ | ⟨_, _, _, heq⟩ | ⟨_, _, _, heq⟩ | ⟨_, _, _, _, _, heq⟩ :=
    solver.respond_cases call
  all_goals rw [heq]
  · exact Nat.le_max_left _ _
  · exact (Intake.reserved_accept _ _).ge

theorem reserved_le_respondAll (solver : ReferenceSolver) (calls : List Call) :
    solver.intake.reserved ≤ (solver.respondAll calls).2.intake.reserved := by
  induction calls generalizing solver with
  | nil => exact le_rfl
  | cons call rest ih => exact (solver.reserved_le_respond call).trans (ih _)

end ReferenceSolver

/-- After any calls, rejected ones included, the counts are those of the stored clauses and the
ceiling is the highest reservation that was accepted; the clauses are stored as they were accepted,
are well-formed, and no two units among them oppose each other.  The next call changes nothing if it
fails; `solve` changes nothing but how often it was answered; and a clause is called contradictory
only if it is, and always if it is a unit that opposes a stored one and there is room for it. -/
theorem intake_consistent (limits : SolverLimits) (calls : List ReferenceSolver.Call)
    {exchanges : List Exchange} {solver : ReferenceSolver}
    (hcalls : (ReferenceSolver.init limits).respondAll calls = (exchanges, solver))
    (clock : Clock) :
    (ReferenceSolver.backend clock).numClauses solver = solver.clauses.size ∧
    solver.clauses.size ≤ limits.maxClauses ∧
    (ReferenceSolver.backend clock).numVars solver ≤ limits.maxVars ∧
    (ReferenceSolver.backend clock).numVars solver =
      ((acceptedCalls exchanges).filterMap SolverCall.reservation?).foldl max 0 ∧
    (∀ later, (ReferenceSolver.backend clock).numVars solver ≤
      (ReferenceSolver.backend clock).numVars (solver.respondAll later).2) ∧
    solver.clauses.toList = (acceptedCalls exchanges).filterMap SolverCall.clause? ∧
    (∀ clause ∈ solver.clauses, clause ≠ [] ∧ ∀ lit ∈ clause,
      lit ≠ 0 ∧ lit.natAbs ≤ (ReferenceSolver.backend clock).numVars solver) ∧
    (∀ lit, [lit] ∈ solver.clauses → [-lit] ∉ solver.clauses) ∧
    (∀ call error next, solver.respond call = (.error error, next) → next = solver) ∧
    (∀ clock assumptions timeout answer next,
      solver.respond (.solve clock assumptions timeout) = (.ok answer, next) →
      next = { solver with solveCount := solver.solveCount + 1 }) ∧
    (∀ lits cause next,
      solver.respond (.addClause lits) = (.error (.contradiction cause), next) →
      ∀ value : Valuation, ¬ value.Models (solver.clauses.toList ++ [lits]) []) ∧
    (∀ lit, [-lit] ∈ solver.clauses →
      (ReferenceSolver.backend clock).numClauses solver < limits.maxClauses →
      solver.respond (.addClause [lit]) =
        (.error (.contradiction (.opposingUnit lit)), solver)) := by
  have hconsistent : solver.Reflects limits (acceptedCalls exchanges) := by
    have hrun := (ReferenceSolver.reflects_init limits).respondAll calls
    rw [hcalls] at hrun
    exact hrun
  have hclauses := hconsistent.keeps.clauses_eq
  have hcount := hconsistent.clauseCount_eq
  rw [← hclauses, Array.length_toList] at hcount
  refine ⟨hcount, hcount ▸ hconsistent.clauseCount_le, hconsistent.reserved_le,
    hconsistent.reserved_eq, solver.reserved_le_respondAll, hclauses, ?_, ?_,
    fun _ _ _ => ReferenceSolver.eq_of_respond_eq_error,
    fun _ _ _ _ _ => ReferenceSolver.eq_of_respond_solve_eq_ok, ?_, ?_⟩
  · intro clause hclause
    rw [← Array.mem_toList_iff, hclauses] at hclause
    exact ⟨hconsistent.ne_nil clause hclause, hconsistent.keeps.inRange clause hclause⟩
  · intro lit hunit
    rw [← Array.mem_toList_iff, hclauses] at hunit ⊢
    have hnonzero := (hconsistent.keeps.inRange _ hunit lit List.mem_cons_self).1
    exact hconsistent.knows.not_mem_neg hnonzero hunit
  · intro lits cause next hrespond
    rw [hclauses]
    exact hconsistent.remembers.not_models
      (ReferenceSolver.checkClause_of_respond_eq_error hrespond)
  · intro lit hopposite hroom
    rw [← Array.mem_toList_iff, hclauses] at hopposite
    exact hconsistent.respond_opposing hopposite hroom

def mixedCalls : List ReferenceSolver.Call :=
  [.reserve 2, .reserve 4, .addClause [1], .addClause [3], .reserve 1, .addClause [1],
    .addClause [-1], .solve .patient [-1] none]

theorem intake_consistent_mixedCalls :
    ∃ exchanges solver, (ReferenceSolver.init ⟨3, 3⟩).respondAll mixedCalls = (exchanges, solver) ∧
      solver.clauses = #[[1], [1]] ∧ (ReferenceSolver.backend .patient).numVars solver = 2 ∧
      (ReferenceSolver.backend .patient).numClauses solver = 2 ∧
      solver.respond (.addClause [-1]) =
        (.error (.contradiction (.opposingUnit (-1))), solver) := by
  obtain ⟨exchanges, solver, hcalls⟩ : ∃ exchanges solver,
      (ReferenceSolver.init ⟨3, 3⟩).respondAll mixedCalls = (exchanges, solver) := ⟨_, _, rfl⟩
  obtain ⟨hcount, -, -, hceiling, -, -, -, -, -, -, -, hopposing⟩ :=
    intake_consistent ⟨3, 3⟩ mixedCalls hcalls .patient
  refine ⟨exchanges, solver, hcalls, ?_⟩
  simp [mixedCalls, ReferenceSolver.respondAll, ReferenceSolver.respond_reserve,
    ReferenceSolver.respond_addClause, ReferenceSolver.respond_solve, Intake.checkReserve,
    Intake.checkClause_cons, Intake.checkClause_of_checkLiterals_eq_error, Intake.checkLiterals,
    ReferenceSolver.init, Intake.init, ReferenceSolver.reserve, Intake.reserve, Intake.opposes,
    ReferenceSolver.accept, Intake.accept] at hcalls
  obtain ⟨rfl, rfl⟩ := hcalls
  exact ⟨rfl, hceiling, hcount, hopposing (-1) (by simp) (by decide)⟩

end BoundedPlanning
