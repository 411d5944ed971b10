import BoundedPlanning.CommandLine.Session
import BoundedPlanning.Proofs.EngineContracts
import BoundedPlanning.Proofs.RunStatistics
import BoundedPlanning.Proofs.SemanticsComparison

namespace BoundedPlanning

/-- Each state of the inner solver is one of the outer solver, where the outer operations do what
the inner ones do. -/
structure Backend.Embeds {σ τ : Type} (outer : Backend τ) (inner : Backend σ) (embed : σ → τ) :
    Prop where
  limits_eq : ∀ solver, outer.limits (embed solver) = inner.limits solver
  numVars_eq : ∀ solver, outer.numVars (embed solver) = inner.numVars solver
  numClauses_eq : ∀ solver, outer.numClauses (embed solver) = inner.numClauses solver
  reserve_eq : ∀ maxVar solver,
    outer.reserve maxVar (embed solver) = (inner.reserve maxVar solver).map id embed
  addClause_eq : ∀ lits solver,
    outer.addClause lits (embed solver) = (inner.addClause lits solver).map id embed
  solve_eq : ∀ assumptions timeout solver,
    outer.solve assumptions timeout (embed solver) =
      (inner.solve assumptions timeout solver).map id embed

theorem Backend.Embeds.keepsBooks {σ τ : Type} {outer : Backend τ} {inner : Backend σ}
    {embed : σ → τ} (h : outer.Embeds inner embed) {timeout : Option Nat}
    {books : σ → Intake → List (List Int) → Prop} (hinner : inner.KeepsBooks timeout books) :
    outer.KeepsBooks timeout fun solver intake accepted =>
      ∃ inside, embed inside = solver ∧ books inside intake accepted where
  limits_eq := by
    rintro _ intake accepted ⟨solver, rfl, hbooks⟩
    exact (h.limits_eq solver).trans (hinner.limits_eq hbooks)
  numVars_eq := by
    rintro _ intake accepted ⟨solver, rfl, hbooks⟩
    exact (h.numVars_eq solver).trans (hinner.numVars_eq hbooks)
  numClauses_eq := by
    rintro _ intake accepted ⟨solver, rfl, hbooks⟩
    exact (h.numClauses_eq solver).trans (hinner.numClauses_eq hbooks)
  reserve := by
    rintro _ intake accepted ⟨solver, rfl, hbooks⟩ maxVar hcheck
    obtain ⟨next, hnext, hkept⟩ := hinner.reserve hbooks maxVar hcheck
    refine ⟨embed next, ?_, next, rfl, hkept⟩
    rw [h.reserve_eq, hnext]
    rfl
  addClause := by
    rintro _ intake accepted ⟨solver, rfl, hbooks⟩ lits hcheck
    obtain ⟨next, hnext, hkept⟩ := hinner.addClause hbooks lits hcheck
    refine ⟨embed next, ?_, next, rfl, hkept⟩
    rw [h.addClause_eq, hnext]
    rfl
  solve := by
    rintro _ intake accepted ⟨solver, rfl, hbooks⟩ assumptions hcheck
    obtain ⟨result, next, hnext, hkept, hdecides⟩ := hinner.solve hbooks assumptions hcheck
    refine ⟨result, embed next, ?_, ⟨next, rfl, hkept⟩, hdecides⟩
    rw [h.solve_eq, hnext]
    rfl

namespace BuiltinSolver

variable {ε ζ : Type}

theorem embeds_batsat (engine : SatEngine ε) :
    (backend : Backend (BuiltinSolver ε ζ)).Embeds (Batsat.backend engine) (.batsat engine) :=
  ⟨fun _ => rfl, fun _ => rfl, fun _ => rfl, fun _ _ => rfl, fun _ _ => rfl, fun _ _ _ => rfl⟩

theorem embeds_z3 (oracle : Z3 ζ) :
    (backend : Backend (BuiltinSolver ε ζ)).Embeds (Z3Solver.backend oracle) (.z3 oracle) :=
  ⟨fun _ => rfl, fun _ => rfl, fun _ => rfl, fun _ _ => rfl, fun _ _ => rfl, fun _ _ _ => rfl⟩

theorem embeds_reference (clock : Clock) :
    (backend : Backend (BuiltinSolver ε ζ)).Embeds (ReferenceSolver.backend clock)
      (.reference clock) :=
  ⟨fun _ => rfl, fun _ => rfl, fun _ => rfl, fun _ _ => rfl, fun _ _ => rfl, fun _ _ _ => rfl⟩

end BuiltinSolver

section Deciding

variable {ε ζ : Type} {installation : Installation ε ζ} {config : PlannerConfig}

/-- The configured solver can be had and decides whatever it is given, within the budget. -/
def Installation.Decides (installation : Installation ε ζ) (config : PlannerConfig) : Prop :=
  match config.backend with
  | .batsat => ∃ engine has, installation.batsat = some engine ∧
      engine.Decides config.timeoutMs? has
  | .z3 => ∃ oracle, installation.z3 = some oracle ∧ oracle.Decides config.timeoutMs?
  | .reference => ∀ assignment,
      (config.timeoutMs?.any fun budget => installation.clock budget assignment) = false

theorem Installation.Decides.exists_books (h : installation.Decides config) :
    ∃ solver books, config.backend.create installation config.limits = .ok solver ∧
      (BuiltinSolver.backend : Backend (BuiltinSolver ε ζ)).KeepsBooks config.timeoutMs? books ∧
      books solver (.init config.limits) [] := by
  unfold Installation.Decides at h
  cases hkind : config.backend with
  | batsat =>
      rw [hkind] at h
      obtain ⟨engine, has, hengine, hdecides⟩ := h
      refine ⟨.batsat engine (.init engine config.limits), _, ?_,
        (BuiltinSolver.embeds_batsat engine).keepsBooks (Batsat.keepsBooks_backend hdecides),
        _, rfl, Batsat.books_init hdecides config.limits⟩
      simp only [BackendKind.create, hengine]
  | z3 =>
      rw [hkind] at h
      obtain ⟨oracle, horacle, hdecides⟩ := h
      refine ⟨.z3 oracle (.init oracle config.limits), _, ?_,
        (BuiltinSolver.embeds_z3 oracle).keepsBooks (Z3Solver.keepsBooks_backend hdecides),
        _, rfl, Z3Solver.books_init oracle config.limits⟩
      simp only [BackendKind.create, horacle]
  | reference =>
      rw [hkind] at h
      exact ⟨.reference installation.clock (.init config.limits), _, rfl,
        (BuiltinSolver.embeds_reference installation.clock).keepsBooks
          (ReferenceSolver.keepsBooks_of_patient h),
        _, rfl, ReferenceSolver.books_init config.limits⟩

end Deciding

section Plans

variable {ε ζ : Type} {installation : Installation ε ζ} {config : PlannerConfig}
  {problem : Problem} {plan : Plan} {horizon : Nat} {stats : List HorizonStats}

/-- A plan that is found was found with the configured solver: none is where time runs out. -/
theorem exists_planWith_of_found
    (h : CommandLine.planWithin installation config problem = .ok ⟨.found plan horizon, stats⟩) :
    ∃ solver next, config.backend.create installation config.limits = .ok solver ∧
      planWith BuiltinSolver.backend config problem solver =
        (.ok ⟨.found plan horizon, stats⟩, next) := by
  unfold CommandLine.planWithin at h
  split at h
  · obtain ⟨solver, hsolver, h⟩ := except_bind_eq_ok h
    obtain ⟨run, hrun, h⟩ := except_bind_eq_ok h
    split at h
    · rename_i hempty
      cases h
      -- A plan is found by a call of the solver, and every call leaves an entry.
      have htimingOut : planWith BuiltinSolver.backend.timingOut config problem solver =
          (.ok ⟨.found plan horizon, stats⟩, _) :=
        Prod.ext (except_mapError_eq_ok hrun) rfl
      obtain ⟨-, -, hlength, -⟩ := stats_of_planWith htimingOut
      rw [List.isEmpty_iff.mp hempty] at hlength
      cases hlength
    · cases h
  · obtain ⟨solver, hsolver, hrun⟩ := except_bind_eq_ok (except_mapError_eq_ok h)
    exact ⟨solver, _, except_mapError_eq_ok hsolver, Prod.ext hrun rfl⟩

/-- The actions of a step of a found plan do not interfere if the solver is right; when steps are
single actions, it need not be. -/
theorem independent_of_found
    (h : CommandLine.planWithin installation config problem = .ok ⟨.found plan horizon, stats⟩)
    (hdecides : config.semantics = .parallel → installation.Decides config) :
    plan.Chronological ∧ plan.achievesGoal problem = true ∧
      ∀ step ∈ plan.steps, step.actions.Pairwise problem.Independent := by
  obtain ⟨solver, next, hsolver, hrun⟩ := exists_planWith_of_found h
  obtain ⟨encoder, hencoded, hplan, hachieves⟩ := exists_readFrom_of_found hrun
  refine ⟨hplan.ordered.chronological, hachieves, fun step hstep => ?_⟩
  cases hsemantics : config.semantics with
  | sequential =>
      obtain ⟨id, hid⟩ := hplan.single hsemantics step hstep
      rw [hid]
      exact List.pairwise_singleton _ _
  | parallel =>
      obtain ⟨other, books, hother, hbackend, hbooks⟩ := (hdecides hsemantics).exists_books
      cases hsolver.symm.trans hother
      have hanswers : problem.Answers config config.limits (.ok ⟨.found plan horizon, stats⟩) :=
        ⟨_, _, books, solver, hbackend, hbooks, congrArg Prod.fst hrun⟩
      obtain ⟨-, hsteps, -, -⟩ := hanswers.of_found ⟨stats, rfl⟩
      have hlegal := (hsteps step hstep).2
      rw [hsemantics] at hlegal
      exact hlegal.2.imp fun hij => hij.2

end Plans

end BoundedPlanning
