import BoundedPlanning.Planner.Loop
import BoundedPlanning.Proofs.Except

namespace BoundedPlanning

namespace PlannerM

variable {σ α : Type} {solver next : σ}

theorem ofSolver_of_ok {operation : SolverM σ α} {a : α} (h : operation solver = (.ok a, next)) :
    ofSolver operation solver = (.ok a, next) := by
  simp only [ofSolver, ExceptT.mk, ExceptT.run, Functor.map, StateT.map]
  rw [h]
  rfl

theorem ofSolver_of_error {operation : SolverM σ α} {error : SolverError}
    (h : operation solver = (.error error, next)) :
    ofSolver operation solver = (.error (.solver error), next) := by
  simp only [ofSolver, ExceptT.mk, ExceptT.run, Functor.map, StateT.map]
  rw [h]
  rfl

theorem ofEncoding_ok (a : α) : (ofEncoding (.ok a) : PlannerM σ α) solver = (.ok a, solver) := by
  rfl

theorem ofEncoding_error (error : EncodingError) :
    (ofEncoding (.error error) : PlannerM σ α) solver = (.error (.encoding error), solver) := by
  rfl

end PlannerM

section Rounds

variable {σ : Type} {problem : Problem} {semantics : StepSemantics} {backend : Backend σ}
  {timeout : Option Nat} {maxSteps : Nat}

section Submitting

variable {encoder next : Encoder problem semantics} {step : Nat} {solver : σ}
  {error : EncodingError}

theorem submitStep_of_capacity_error
    (h : checkCapacity (backend.limits solver) encoder.index.size (backend.numClauses solver)
      (encoder.stepSize step) step = .error error) :
    submitStep backend encoder step solver = (.error (.encoding error), solver) := by
  rw [submitStep, exceptT_get_bind, h, exceptT_bind_of_error (PlannerM.ofEncoding_error error)]

variable (hcapacity : checkCapacity (backend.limits solver) encoder.index.size
  (backend.numClauses solver) (encoder.stepSize step) step = .ok ())
include hcapacity

theorem submitStep_of_encodeStep_error (h : encoder.encodeStep step = .error error) :
    submitStep backend encoder step solver = (.error (.encoding error), solver) := by
  rw [submitStep, exceptT_get_bind, hcapacity, exceptT_bind_of_ok (PlannerM.ofEncoding_ok ()), h,
    exceptT_bind_of_error (PlannerM.ofEncoding_error error)]

/-- A step that fits and can be encoded is given to the solver. -/
theorem submitStep_of_encodeStep_ok {delta : List Clause}
    (h : encoder.encodeStep step = .ok (delta, next)) :
    submitStep backend encoder step solver =
      (PlannerM.ofSolver (backend.reserve next.index.size) >>= fun _ =>
        (delta.forM fun clause => PlannerM.ofSolver (backend.addClause clause.literals)) >>= fun _ =>
          pure next) solver := by
  rw [submitStep, exceptT_get_bind, hcapacity, exceptT_bind_of_ok (PlannerM.ofEncoding_ok ()), h,
    exceptT_bind_of_ok (PlannerM.ofEncoding_ok (delta, next))]

end Submitting

section Solving

variable {encoder : Encoder problem semantics} {horizon : Nat} {goal : List Int} {solver next : σ}

theorem solveHorizon_of_goalLiterals_error {error : EncodingError}
    (h : encoder.goalLiterals horizon = .error error) :
    solveHorizon backend timeout encoder horizon solver = (.error (.encoding error), solver) := by
  rw [solveHorizon, h, exceptT_bind_of_error (PlannerM.ofEncoding_error error)]

theorem solveHorizon_of_ok (hgoal : encoder.goalLiterals horizon = .ok goal) {result : SolveResult}
    (h : backend.solve goal timeout solver = (.ok result, next)) :
    solveHorizon backend timeout encoder horizon solver =
      (.ok (result, ⟨horizon, backend.numVars solver, backend.numClauses solver, result.status⟩),
        next) := by
  rw [solveHorizon, hgoal, exceptT_bind_of_ok (PlannerM.ofEncoding_ok goal), exceptT_get_bind,
    exceptT_get_bind, exceptT_bind_of_ok (PlannerM.ofSolver_of_ok h)]
  rfl

theorem solveHorizon_of_error (hgoal : encoder.goalLiterals horizon = .ok goal)
    {error : SolverError} (h : backend.solve goal timeout solver = (.error error, next)) :
    solveHorizon backend timeout encoder horizon solver = (.error (.solver error), next) := by
  rw [solveHorizon, hgoal, exceptT_bind_of_ok (PlannerM.ofEncoding_ok goal), exceptT_get_bind,
    exceptT_get_bind, exceptT_bind_of_error (PlannerM.ofSolver_of_error h)]

end Solving

def afterSolving (backend : Backend σ) (timeout : Option Nat) (maxSteps : Nat)
    (encoder : Encoder problem semantics) (horizon : Nat) (stats : Array HorizonStats)
    (result : SolveResult) (solver : σ) : Except PlanError PlanRun × σ :=
  match result with
  | .sat model =>
    ((acceptModel encoder model horizon).map fun plan => ⟨.found plan horizon, stats.toList⟩, solver)
  | .timedOut => (.ok ⟨.timedOut horizon, stats.toList⟩, solver)
  | .unsat =>
    if horizon < maxSteps then
      deepen backend timeout maxSteps encoder (horizon + 1) stats solver
    else (.ok ⟨.resourceExhausted maxSteps, stats.toList⟩, solver)

theorem deepen_of_submitStep_error {encoder : Encoder problem semantics} {horizon : Nat}
    {stats : Array HorizonStats} {solver next : σ} {error : PlanError}
    (h : submitStep backend encoder horizon solver = (.error error, next)) :
    deepen backend timeout maxSteps encoder horizon stats solver = (.error error, next) := by
  rw [deepen]
  exact exceptT_bind_of_error h

theorem deepen_of_solveHorizon_error {encoder submitted : Encoder problem semantics}
    {horizon : Nat} {stats : Array HorizonStats} {solver middle next : σ} {error : PlanError}
    (hsubmit : submitStep backend encoder horizon solver = (.ok submitted, middle))
    (h : solveHorizon backend timeout submitted horizon middle = (.error error, next)) :
    deepen backend timeout maxSteps encoder horizon stats solver = (.error error, next) := by
  rw [deepen, exceptT_bind_of_ok hsubmit]
  exact exceptT_bind_of_error h

theorem deepen_of_solveHorizon_ok {encoder submitted : Encoder problem semantics}
    {horizon : Nat} {stats : Array HorizonStats} {solver middle next : σ} {result : SolveResult}
    {entry : HorizonStats}
    (hsubmit : submitStep backend encoder horizon solver = (.ok submitted, middle))
    (h : solveHorizon backend timeout submitted horizon middle = (.ok (result, entry), next)) :
    deepen backend timeout maxSteps encoder horizon stats solver =
      afterSolving backend timeout maxSteps submitted horizon (stats.push entry) result next := by
  rw [deepen, exceptT_bind_of_ok hsubmit, exceptT_bind_of_ok h]
  cases result with
  | sat model =>
      dsimp only [afterSolving]
      cases haccept : acceptModel submitted model horizon with
      | error error => exact exceptT_bind_of_error rfl
      | ok plan => exact exceptT_bind_of_ok rfl
  | timedOut => rfl
  | unsat =>
      dsimp only [afterSolving]
      split <;> rfl

/-- A round in which the run does not fail submits the step and has the horizon solved. -/
theorem exists_of_deepen_ok {encoder : Encoder problem semantics} {horizon : Nat}
    {stats : Array HorizonStats} {solver last : σ} {run : PlanRun}
    (h : deepen backend timeout maxSteps encoder horizon stats solver = (.ok run, last)) :
    ∃ submitted middle result entry next,
      submitStep backend encoder horizon solver = (.ok submitted, middle) ∧
      solveHorizon backend timeout submitted horizon middle = (.ok (result, entry), next) ∧
      afterSolving backend timeout maxSteps submitted horizon (stats.push entry) result next =
        (.ok run, last) := by
  have hround := h
  rw [deepen] at hround
  obtain ⟨submitted, middle, hsubmit, hrest⟩ := exists_of_exceptT_bind_ok hround
  obtain ⟨⟨result, entry⟩, next, hsolve, -⟩ := exists_of_exceptT_bind_ok hrest
  rw [deepen_of_solveHorizon_ok hsubmit hsolve] at h
  exact ⟨submitted, middle, result, entry, next, hsubmit, hsolve, h⟩

/-- What a run that ends with this round can come to. -/
theorem afterSolving_cases {encoder : Encoder problem semantics} {horizon : Nat}
    {stats : Array HorizonStats} {result : SolveResult} {solver last : σ} {run : PlanRun}
    (hlast : ¬ (result = .unsat ∧ horizon < maxSteps))
    (h : afterSolving backend timeout maxSteps encoder horizon stats result solver =
      (.ok run, last)) :
    run.stats = stats.toList ∧ last = solver ∧
      ((∃ model plan, result = .sat model ∧ acceptModel encoder model horizon = .ok plan ∧
          run.outcome = .found plan horizon) ∨
        (result = .timedOut ∧ run.outcome = .timedOut horizon) ∨
        (result = .unsat ∧ run.outcome = .resourceExhausted maxSteps)) := by
  cases result with
  | sat model =>
      rw [afterSolving] at h
      cases haccept : acceptModel encoder model horizon with
      | error error =>
          rw [haccept] at h
          cases h
      | ok plan =>
          rw [haccept] at h
          cases h
          exact ⟨rfl, rfl, Or.inl ⟨model, plan, rfl, haccept, rfl⟩⟩
  | timedOut =>
      cases h
      exact ⟨rfl, rfl, Or.inr (Or.inl ⟨rfl, rfl⟩)⟩
  | unsat =>
      rw [afterSolving, if_neg fun hlt => hlast ⟨rfl, hlt⟩] at h
      cases h
      exact ⟨rfl, rfl, Or.inr (Or.inr ⟨rfl, rfl⟩)⟩

/-- A property of the places between two rounds and one of the final answer: when each round keeps
the first or ends with the second, every run ends with the second. -/
theorem deepen_induction
    (Between : Nat → Encoder problem semantics → Array HorizonStats → σ → Prop)
    (Final : Except PlanError PlanRun × σ → Prop)
    (round : ∀ horizon encoder stats solver, horizon ≤ maxSteps →
      Between horizon encoder stats solver →
        Final (deepen backend timeout maxSteps encoder horizon stats solver) ∨
          horizon < maxSteps ∧ ∃ next nextStats nextSolver,
            Between (horizon + 1) next nextStats nextSolver ∧
            deepen backend timeout maxSteps encoder horizon stats solver =
              deepen backend timeout maxSteps next (horizon + 1) nextStats nextSolver)
    {horizon : Nat} {encoder : Encoder problem semantics} {stats : Array HorizonStats} {solver : σ}
    (hle : horizon ≤ maxSteps) (h : Between horizon encoder stats solver) :
    Final (deepen backend timeout maxSteps encoder horizon stats solver) := by
  -- The number of horizons still to try goes down.
  induction hleft : maxSteps - horizon generalizing horizon encoder stats solver with
  | zero =>
      rcases round horizon encoder stats solver hle h with hfinal | ⟨hlt, -⟩
      · exact hfinal
      · omega
  | succ left ih =>
      rcases round horizon encoder stats solver hle h with
        hfinal | ⟨hlt, next, nextStats, nextSolver, hnext, heq⟩
      · exact hfinal
      · rw [heq]
        exact ih hlt hnext (by omega)

theorem deepen_ne_unreachable {encoder : Encoder problem semantics} {horizon : Nat}
    {stats : Array HorizonStats} {solver : σ} (hle : horizon ≤ maxSteps)
    (entries : List HorizonStats) :
    (deepen backend timeout maxSteps encoder horizon stats solver).1 ≠
      .ok ⟨.unreachable, entries⟩ := by
  refine deepen_induction (fun _ _ _ _ => True)
    (fun answer => answer.1 ≠ .ok ⟨.unreachable, entries⟩)
    (fun horizon encoder stats solver _ _ => ?_) hle trivial
  refine Classical.or_iff_not_imp_left.mpr fun hreached => ?_
  obtain ⟨submitted, middle, result, entry, next, hsubmit, hsolve, hafter⟩ :=
    exists_of_deepen_ok (Prod.ext (Classical.not_not.mp hreached) rfl)
  by_cases hlast : result = .unsat ∧ horizon < maxSteps
  · obtain ⟨rfl, hlt⟩ := hlast
    refine ⟨hlt, submitted, stats.push entry, next, trivial, ?_⟩
    rw [deepen_of_solveHorizon_ok hsubmit hsolve, afterSolving, if_pos hlt]
  · obtain ⟨-, -, ⟨_, _, -, -, houtcome⟩ | ⟨-, houtcome⟩ | ⟨-, houtcome⟩⟩ :=
      afterSolving_cases hlast hafter
    all_goals cases houtcome

end Rounds

section Moves

variable {σ α β : Type} {relation : σ → σ → Prop} {backend : Backend σ}

/-- The computation takes every state of the solver to a related one, also when it fails. -/
def PlannerM.Moves (relation : σ → σ → Prop) (computation : PlannerM σ α) : Prop :=
  ∀ solver, relation solver (computation solver).2

/-- The calls of the solver take it to related states, and so does any sequence of them. -/
structure Backend.Moves (backend : Backend σ) (relation : σ → σ → Prop) : Prop where
  refl : ∀ solver, relation solver solver
  trans : ∀ {solver middle next}, relation solver middle → relation middle next →
    relation solver next
  reserve : ∀ maxVar solver, relation solver (backend.reserve maxVar solver).2
  addClause : ∀ lits solver, relation solver (backend.addClause lits solver).2
  solve : ∀ assumptions timeout solver,
    relation solver (backend.solve assumptions timeout solver).2

namespace Backend.Moves

variable (h : backend.Moves relation)
include h

theorem pure (a : α) : PlannerM.Moves relation (pure a : PlannerM σ α) := h.refl

theorem lift (result : Except PlanError α) :
    PlannerM.Moves relation (ExceptT.mk (Pure.pure result) : PlannerM σ α) := h.refl

theorem bind {first : PlannerM σ α} {rest : α → PlannerM σ β}
    (hfirst : PlannerM.Moves relation first) (hrest : ∀ a, PlannerM.Moves relation (rest a)) :
    PlannerM.Moves relation (first >>= rest) := by
  intro solver
  have hmiddle := hfirst solver
  cases hresult : first solver with
  | mk result middle =>
      rw [hresult] at hmiddle
      cases result with
      | error error => rwa [exceptT_bind_of_error hresult]
      | ok a =>
          rw [exceptT_bind_of_ok hresult]
          exact h.trans hmiddle (hrest a middle)

omit h in
theorem get_bind {rest : σ → PlannerM σ α}
    (hrest : ∀ solver, PlannerM.Moves relation (rest solver)) :
    PlannerM.Moves relation (get >>= rest) :=
  fun solver => hrest solver solver

omit h in
theorem ofSolver {operation : SolverM σ α}
    (hoperation : ∀ solver, relation solver (operation solver).2) :
    PlannerM.Moves relation (PlannerM.ofSolver operation) :=
  hoperation

theorem addClauses (clauses : List Clause) :
    PlannerM.Moves relation
      (clauses.forM fun clause => PlannerM.ofSolver (backend.addClause clause.literals)) := by
  induction clauses with
  | nil => exact h.pure ()
  | cons clause rest ih => exact h.bind (ofSolver (h.addClause clause.literals)) fun _ => ih

variable {problem : Problem} {semantics : StepSemantics}

theorem submitStep (encoder : Encoder problem semantics) (step : Nat) :
    PlannerM.Moves relation (submitStep backend encoder step) := by
  rw [BoundedPlanning.submitStep]
  apply get_bind
  intro solver
  apply h.bind (h.lift _)
  intro _
  apply h.bind (h.lift _)
  rintro ⟨clauses, next⟩
  dsimp only
  apply h.bind (ofSolver (h.reserve _))
  intro _
  exact h.bind (h.addClauses clauses) fun _ => h.pure next

theorem solveHorizon (timeout : Option Nat) (encoder : Encoder problem semantics) (horizon : Nat) :
    PlannerM.Moves relation (solveHorizon backend timeout encoder horizon) := by
  rw [BoundedPlanning.solveHorizon]
  apply h.bind (h.lift _)
  intro goal
  apply get_bind
  intro solver
  apply get_bind
  intro later
  exact h.bind (ofSolver (h.solve goal timeout)) fun _ => h.pure _

theorem deepen (timeout : Option Nat) (maxSteps : Nat) (encoder : Encoder problem semantics)
    (horizon : Nat) (stats : Array HorizonStats) :
    PlannerM.Moves relation (deepen backend timeout maxSteps encoder horizon stats) := by
  -- The number of horizons still to try goes down.
  induction hleft : maxSteps - horizon using Nat.strongRecOn
    generalizing encoder horizon stats with
  | ind left ih =>
      rw [BoundedPlanning.deepen]
      apply h.bind (h.submitStep encoder horizon)
      intro submitted
      apply h.bind (h.solveHorizon timeout submitted horizon)
      rintro ⟨result, entry⟩
      cases result with
      | sat model => exact h.bind (h.lift _) fun plan => h.pure _
      | timedOut => exact h.pure _
      | unsat =>
          dsimp only
          split
          · exact ih (maxSteps - (horizon + 1)) (by omega) submitted (horizon + 1) _ rfl
          · exact h.pure _

end Backend.Moves

end Moves

section Arrivals

variable {σ : Type} {backend : Backend σ} {config : PlannerConfig} {problem : Problem}
  {solver state : σ} {horizon : Nat} {encoder : Encoder problem config.semantics}
  {stats : Array HorizonStats}

/-- The run comes to the round of the horizon, with this encoder, these entries and this state of
the solver.  It does when the horizon before was found to have no plan. -/
inductive ComesTo (backend : Backend σ) (config : PlannerConfig) (problem : Problem) (solver : σ) :
    Nat → Encoder problem config.semantics → Array HorizonStats → σ → Prop
  | start (hpossible : problem.goalPossiblyReachable = true) :
      ComesTo backend config problem solver 0 (.init problem config.semantics) #[] solver
  | next {horizon : Nat} {encoder submitted : Encoder problem config.semantics}
      {stats : Array HorizonStats} {before middle after : σ} {entry : HorizonStats}
      (h : ComesTo backend config problem solver horizon encoder stats before)
      (hsubmit : submitStep backend encoder horizon before = (.ok submitted, middle))
      (hsolve : solveHorizon backend config.timeoutMs? submitted horizon middle =
        (.ok (.unsat, entry), after))
      (hlt : horizon < config.maxSteps) :
      ComesTo backend config problem solver (horizon + 1) submitted (stats.push entry) after

theorem ComesTo.planWith_eq
    (h : ComesTo backend config problem solver horizon encoder stats state) :
    planWith backend config problem solver =
      deepen backend config.timeoutMs? config.maxSteps encoder horizon stats state := by
  induction h with
  | start hpossible => rw [planWith, if_pos hpossible]
  | next _ hsubmit hsolve hlt ih =>
      rw [ih, deepen_of_solveHorizon_ok hsubmit hsolve, afterSolving, if_pos hlt]

/-- The round of the horizon finds that there is no plan, and the next horizon may be tried. -/
def GoesOn (backend : Backend σ) (config : PlannerConfig) (horizon : Nat)
    (encoder : Encoder problem config.semantics) (state : σ) : Prop :=
  ∃ submitted middle entry after,
    submitStep backend encoder horizon state = (.ok submitted, middle) ∧
    solveHorizon backend config.timeoutMs? submitted horizon middle =
      (.ok (.unsat, entry), after) ∧ horizon < config.maxSteps

theorem exists_last_round (hpossible : problem.goalPossiblyReachable = true) :
    ∃ horizon encoder stats state,
      ComesTo backend config problem solver horizon encoder stats state ∧
      ¬ GoesOn backend config horizon encoder state := by
  refine @deepen_induction σ problem config.semantics backend config.timeoutMs? config.maxSteps
    (ComesTo backend config problem solver)
    (fun _ => ∃ horizon encoder stats state,
      ComesTo backend config problem solver horizon encoder stats state ∧
      ¬ GoesOn backend config horizon encoder state)
    (fun horizon encoder stats state _ h => ?_) _ _ _ _ (Nat.zero_le _) (.start hpossible)
  by_cases hnext : GoesOn backend config horizon encoder state
  · obtain ⟨submitted, middle, entry, after, hsubmit, hsolve, hlt⟩ := hnext
    refine Or.inr ⟨hlt, submitted, stats.push entry, after, h.next hsubmit hsolve hlt, ?_⟩
    rw [deepen_of_solveHorizon_ok hsubmit hsolve, afterSolving, if_pos hlt]
  · exact Or.inl ⟨horizon, encoder, stats, state, h, hnext⟩

/-- A run that does not fail ends with the answer of a last round, whose entry it records last. -/
theorem exists_of_solveHorizon_ok {timeout : Option Nat}
    (h : solveHorizon backend timeout submitted horizon middle = (.ok (result, entry), next)) :
    (∃ goal, backend.solve goal timeout middle = (.ok result, next)) ∧
      entry = ⟨horizon, backend.numVars middle, backend.numClauses middle, result.status⟩ := by
  cases hgoal : submitted.goalLiterals horizon with
  | error error =>
      rw [solveHorizon_of_goalLiterals_error hgoal] at h
      cases h
  | ok goal =>
      cases hcall : backend.solve goal timeout middle with
      | mk answer after =>
          cases answer with
          | error error =>
              rw [solveHorizon_of_error hgoal hcall] at h
              cases h
          | ok answered =>
              rw [solveHorizon_of_ok hgoal hcall] at h
              cases h
              exact ⟨⟨goal, hcall⟩, rfl⟩

theorem exists_ending (hpossible : problem.goalPossiblyReachable = true) {run : PlanRun} {last : σ}
    (h : planWith backend config problem solver = (.ok run, last)) :
    ∃ horizon encoder stats state submitted middle result entry,
      ComesTo backend config problem solver horizon encoder stats state ∧
      submitStep backend encoder horizon state = (.ok submitted, middle) ∧
      solveHorizon backend config.timeoutMs? submitted horizon middle =
        (.ok (result, entry), last) ∧
      run.stats = stats.toList ++ [entry] ∧
      ((∃ model plan, result = .sat model ∧ acceptModel submitted model horizon = .ok plan ∧
          run.outcome = .found plan horizon) ∨
        (result = .timedOut ∧ run.outcome = .timedOut horizon) ∨
        (result = .unsat ∧ run.outcome = .resourceExhausted config.maxSteps ∧
          ¬ horizon < config.maxSteps)) := by
  obtain ⟨horizon, encoder, stats, state, hcomes, hstops⟩ := exists_last_round hpossible
  rw [hcomes.planWith_eq] at h
  obtain ⟨submitted, middle, result, entry, after, hsubmit, hsolve, hafter⟩ :=
    exists_of_deepen_ok h
  have hlast : ¬ (result = .unsat ∧ horizon < config.maxSteps) := by
    rintro ⟨rfl, hlt⟩
    exact hstops ⟨submitted, middle, entry, after, hsubmit, hsolve, hlt⟩
  obtain ⟨hstats, rfl, hcases⟩ := afterSolving_cases hlast hafter
  rw [Array.toList_push] at hstats
  refine ⟨horizon, encoder, stats, state, submitted, middle, result, entry, hcomes, hsubmit, hsolve,
    hstats, ?_⟩
  obtain hfound | htimedOut | ⟨hunsat, houtcome⟩ := hcases
  · exact Or.inl hfound
  · exact Or.inr (Or.inl htimedOut)
  · exact Or.inr (Or.inr ⟨hunsat, houtcome, fun hlt => hlast ⟨hunsat, hlt⟩⟩)

end Arrivals

end BoundedPlanning
