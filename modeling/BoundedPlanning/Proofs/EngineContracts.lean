import BoundedPlanning.Proofs.IntakeInvariant
import BoundedPlanning.Proofs.SolverContract
import BoundedPlanning.Solver.Kind

namespace BoundedPlanning

def Truth.known? : Truth → Option Bool
  | .unknown => none
  | .isTrue => some true
  | .isFalse => some false

theorem Truth.getD_known? (truth : Truth) : truth.known?.getD false = truth.holds := by
  cases truth <;> rfl

theorem foldl_max_le_iff {numbers : List Nat} {start bound : Nat} :
    numbers.foldl max start ≤ bound ↔ start ≤ bound ∧ ∀ number ∈ numbers, number ≤ bound := by
  induction numbers generalizing start with
  | nil => simp
  | cons number rest ih =>
      rw [List.foldl_cons, ih, Nat.max_le, List.forall_mem_cons, and_assoc]

theorem highestVar_le_iff {lits : List Int} {bound : Nat} :
    highestVar lits ≤ bound ↔ ∀ lit ∈ lits, lit.natAbs ≤ bound := by
  rw [highestVar, foldl_max_le_iff, List.forall_mem_map]
  exact and_iff_right (Nat.zero_le bound)

theorem natAbs_le_highestVar {lits : List Int} {lit : Int} (hlit : lit ∈ lits) :
    lit.natAbs ≤ highestVar lits :=
  highestVar_le_iff.mp le_rfl lit hlit

section Models

variable {value : Valuation} {clauses : List (List Int)} {assumptions : List Int} {top : Nat}

/-- The model of the variables up to a highest one; those without a value become false. -/
def Valuation.model (value : Valuation) (top : Nat) : Model :=
  ⟨((List.range top).map fun i => (value (i + 1)).getD false).toArray⟩

theorem Valuation.maxVar_model : (value.model top).maxVar = top := by
  simp [model, Model.maxVar]

theorem Valuation.value?_model {var : Nat} (hpos : 0 < var) (hle : var ≤ top) :
    (value.model top).value? var = some ((value var).getD false) := by
  have hlt : var - 1 < top := by omega
  have hvar : var - 1 + 1 = var := by omega
  rw [Model.value?, if_neg (by omega), model]
  simp [hlt, hvar]

theorem Valuation.Satisfies.model {lits : List Int} (h : value.Satisfies lits)
    (hlits : ∀ lit ∈ lits, lit ≠ 0 ∧ lit.natAbs ≤ top) :
    Valuation.Satisfies (value.model top).value? lits := by
  obtain ⟨lit, hlit, hvalue⟩ := h
  obtain ⟨hnonzero, hle⟩ := hlits lit hlit
  refine ⟨lit, hlit, ?_⟩
  rw [value?_model (Int.natAbs_pos.mpr hnonzero) hle, hvalue, Option.getD_some]

theorem Valuation.Models.model (h : value.Models clauses assumptions)
    (hclauses : ∀ clause ∈ clauses, ∀ lit ∈ clause, lit ≠ 0 ∧ lit.natAbs ≤ top)
    (hassumptions : ∀ lit ∈ assumptions, lit ≠ 0 ∧ lit.natAbs ≤ top) :
    Valuation.Models (value.model top).value? clauses assumptions :=
  ⟨fun clause hclause => (h.1 clause hclause).model (hclauses clause hclause),
    fun lit hlit => (h.2 lit hlit).model (by simpa using hassumptions lit hlit)⟩

end Models

/-- The answer is right for the clauses and assumptions; a model can be asked for the values of the
variables up to the highest one. -/
def SatEngine.Answers {ε : Type} (engine : SatEngine ε) (state : ε) (top : Nat)
    (clauses : List (List Int)) (assumptions : List Int) : EngineAnswer → Prop
  | .sat => ∃ truth : Nat → Truth,
      (∀ var, 0 < var → var ≤ top → engine.value var state = .ok (truth var)) ∧
        Valuation.Models (fun var => (truth var).known?) clauses assumptions
  | .unsat => ∀ value : Valuation, ¬ value.Models clauses assumptions
  | .interrupted => False

/-- The engine takes every clause and decides those it has taken within the timeout.  Its states are
described by these clauses and the highest variable that was mentioned. -/
structure SatEngine.Decides {ε : Type} (engine : SatEngine ε) (timeout : Option Nat)
    (has : ε → List (List Int) → Nat → Prop) : Prop where
  init : has engine.init [] 0
  addClause : ∀ {state clauses top}, has state clauses top → ∀ lits, lits ≠ [] →
    (∀ lit ∈ lits, lit ≠ 0) →
      ∃ next, engine.addClause lits state = (.ok (), next) ∧
        has next (clauses ++ [lits]) (max top (highestVar lits))
  solve : ∀ {state clauses top}, has state clauses top → ∀ assumptions,
    (∀ lit ∈ assumptions, lit ≠ 0) →
      ∃ answer next, engine.solve assumptions timeout state = (.ok answer, next) ∧
        has next clauses (max top (highestVar assumptions)) ∧
        engine.Answers next (max top (highestVar assumptions)) clauses assumptions answer

namespace Batsat

variable {ε : Type} {engine : SatEngine ε} {timeout : Option Nat}
  {has : ε → List (List Int) → Nat → Prop}

structure Books (has : ε → List (List Int) → Nat → Prop) (solver : Batsat ε) (intake : Intake)
    (accepted : List (List Int)) : Prop where
  intake_eq : solver.intake = intake
  has_accepted : has solver.engine accepted solver.maxUsed
  maxUsed_le : solver.maxUsed ≤ intake.reserved
  inRange : ∀ clause ∈ accepted, ∀ lit ∈ clause, lit ≠ 0 ∧ lit.natAbs ≤ solver.maxUsed

theorem books_init (h : engine.Decides timeout has) (limits : SolverLimits) :
    Books has (.init engine limits) (.init limits) [] where
  intake_eq := rfl
  has_accepted := h.init
  maxUsed_le := Nat.zero_le _
  inRange := by simp

theorem extractModel_eq {solver : Batsat ε} {truth : Nat → Truth}
    (h : ∀ var, 0 < var → var ≤ solver.maxUsed →
      engine.value var solver.engine = .ok (truth var)) :
    extractModel engine solver =
      (.ok (Valuation.model (fun var => (truth var).known?) solver.maxUsed), solver) := by
  have hvalues : (List.range solver.maxUsed).mapM (fun i => engine.value (i + 1) solver.engine) =
      .ok ((List.range solver.maxUsed).map fun i => truth (i + 1)) := by
    rw [except_mapM_eq_ok_iff, List.forall₂_map_right_iff, List.forall₂_same]
    intro i hi
    exact h (i + 1) (Nat.succ_pos i) (List.mem_range.mp hi)
  simp only [extractModel, hvalues, Except.map, Except.mapError, Valuation.model,
    Truth.getD_known?, List.map_map, Function.comp_def]

theorem callEngine_eq {α : Type} {operation : ε → Except String α × ε} {solver : Batsat ε} {a : α}
    {next : ε} (h : operation solver.engine = (.ok a, next)) :
    callEngine operation solver = (.ok a, { solver with engine := next }) := by
  simp only [callEngine, h, Except.mapError]

theorem addClause_eq {solver : Batsat ε} {lits : List Int} {next : ε}
    (hcheck : solver.intake.checkClause lits = .ok ())
    (h : engine.addClause lits solver.engine = (.ok (), next)) :
    addClause engine lits solver =
      (.ok (), { solver with
        engine := next
        intake := solver.intake.accept lits
        maxUsed := max solver.maxUsed (highestVar lits) }) := by
  have hchecked : SolverM.checked (fun solver : Batsat ε => solver.intake.checkClause lits)
      (fun solver => ((), { solver with intake := solver.intake.accept lits })) solver =
        (.ok (), { solver with intake := solver.intake.accept lits }) := by
    simp only [SolverM.checked, hcheck]
  have hcalled : callEngine (engine.addClause lits)
      { solver with intake := solver.intake.accept lits } =
        (.ok (), { solver with intake := solver.intake.accept lits, engine := next }) :=
    callEngine_eq h
  rw [addClause, exceptT_bind_of_ok hchecked, exceptT_bind_of_ok hcalled]
  rfl

theorem solve_eq {solver : Batsat ε} {assumptions : List Int} {timeout : Option Nat} {next : ε}
    {answer : EngineAnswer} (hcheck : solver.intake.checkLiterals assumptions = .ok ())
    (h : engine.solve assumptions timeout solver.engine = (.ok answer, next)) :
    solve engine assumptions timeout solver =
      resultOf engine answer { solver with
        engine := next
        maxUsed := max solver.maxUsed (highestVar assumptions) } := by
  have hchecked : SolverM.checked (fun solver : Batsat ε => solver.intake.checkLiterals assumptions)
      (fun solver => ((), solver.mention assumptions)) solver =
        (.ok (), solver.mention assumptions) := by
    simp only [SolverM.checked, hcheck]
  rw [solve, exceptT_bind_of_ok hchecked]
  exact exceptT_bind_of_ok (callEngine_eq h)

theorem keepsBooks_backend (h : engine.Decides timeout has) :
    (backend engine).KeepsBooks timeout (Books has) where
  limits_eq hbooks := congrArg Intake.limits hbooks.intake_eq
  numVars_eq hbooks := congrArg Intake.reserved hbooks.intake_eq
  numClauses_eq hbooks := congrArg Intake.clauseCount hbooks.intake_eq
  reserve := by
    rintro solver _ accepted ⟨rfl, hhas, hle, hrange⟩ maxVar hcheck
    refine ⟨{ solver with intake := solver.intake.reserve maxVar }, ?_, rfl, hhas, ?_, hrange⟩
    · simp only [backend, SolverM.checked, hcheck]
    · exact hle.trans (Nat.le_max_left _ _)
  addClause := by
    rintro solver _ accepted ⟨rfl, hhas, hle, hrange⟩ lits hcheck
    have hliterals :=
      Intake.checkLiterals_eq_ok_iff.mp (Intake.checkLiterals_of_checkClause hcheck)
    obtain ⟨next, hnext, hnextHas⟩ := h.addClause hhas lits
      (Intake.of_checkClause_eq_ok hcheck).1 fun lit hlit => (hliterals lit hlit).1
    refine ⟨_, addClause_eq hcheck hnext, rfl, hnextHas, ?_, ?_⟩
    · rw [Intake.reserved_accept, Nat.max_le, highestVar_le_iff]
      exact ⟨hle, fun lit hlit => (hliterals lit hlit).2⟩
    · intro clause hclause lit hlit
      rcases List.mem_append.mp hclause with hold | hnew
      · obtain ⟨hnonzero, hlitLe⟩ := hrange clause hold lit hlit
        exact ⟨hnonzero, hlitLe.trans (Nat.le_max_left _ _)⟩
      · rw [List.mem_singleton.mp hnew] at hlit
        exact ⟨(hliterals lit hlit).1, (natAbs_le_highestVar hlit).trans (Nat.le_max_right _ _)⟩
  solve := by
    rintro solver _ accepted ⟨rfl, hhas, hle, hrange⟩ assumptions hcheck
    have hliterals := Intake.checkLiterals_eq_ok_iff.mp hcheck
    obtain ⟨answer, next, hnext, hnextHas, hanswers⟩ := h.solve hhas assumptions
      fun lit hlit => (hliterals lit hlit).1
    have htop : max solver.maxUsed (highestVar assumptions) ≤ solver.intake.reserved :=
      Nat.max_le.mpr ⟨hle, highestVar_le_iff.mpr fun lit hlit => (hliterals lit hlit).2⟩
    have hclauses : ∀ clause ∈ accepted, ∀ lit ∈ clause,
        lit ≠ 0 ∧ lit.natAbs ≤ max solver.maxUsed (highestVar assumptions) := by
      intro clause hclause lit hlit
      obtain ⟨hnonzero, hlitLe⟩ := hrange clause hclause lit hlit
      exact ⟨hnonzero, hlitLe.trans (Nat.le_max_left _ _)⟩
    have hbooks : Books has { solver with
        engine := next
        maxUsed := max solver.maxUsed (highestVar assumptions) } solver.intake accepted :=
      ⟨rfl, hnextHas, htop, hclauses⟩
    cases answer with
    | sat =>
        obtain ⟨truth, hvalues, hmodels⟩ := hanswers
        refine ⟨.sat (Valuation.model (fun var => (truth var).known?)
          (max solver.maxUsed (highestVar assumptions))), _, ?_, hbooks, ?_, ?_⟩
        · exact (solve_eq hcheck hnext).trans (exceptT_bind_of_ok (extractModel_eq hvalues))
        · exact fun var hvar => (Model.trueVars_le Valuation.maxVar_model var hvar).trans htop
        · refine hmodels.model hclauses fun lit hlit => ⟨(hliterals lit hlit).1, ?_⟩
          exact (natAbs_le_highestVar hlit).trans (Nat.le_max_right _ _)
    | unsat =>
        exact ⟨.unsat, _, solve_eq hcheck hnext, hbooks, hanswers⟩
    | interrupted => exact hanswers.elim

end Batsat

/-- The clauses and assumptions of the question are over its variables. -/
structure Z3Query.InRange (query : Z3Query) : Prop where
  clauses : ∀ clause ∈ query.clauses, ∀ lit ∈ clause, lit ≠ 0 ∧ lit.natAbs ≤ query.numVars
  assumptions : ∀ lit ∈ query.assumptions, lit ≠ 0 ∧ lit.natAbs ≤ query.numVars

/-- The answer is right for the question, and comes with a model where there is one. -/
def Z3Answer.Decides (query : Z3Query) : Z3Answer → Prop
  | .sat none => False
  | .sat (some value) => Valuation.Models value query.clauses query.assumptions
  | .unsat => ∀ value : Valuation, ¬ value.Models query.clauses query.assumptions
  | .unknown _ => False

/-- Z3 decides every question within the timeout. -/
def Z3.Decides {ζ : Type} (oracle : Z3 ζ) (timeout : Option Nat) : Prop :=
  ∀ query state, query.InRange → query.timeout = timeout.map Z3Query.budget →
    (oracle.check query state).1.Decides query

namespace Z3Solver

variable {ζ : Type} {oracle : Z3 ζ} {timeout : Option Nat}

structure Books (solver : Z3Solver ζ) (intake : Intake) (accepted : List (List Int)) : Prop where
  intake_eq : solver.intake = intake
  clauses_eq : solver.clauses.toList = accepted
  inRange : ∀ clause ∈ accepted, ∀ lit ∈ clause, lit ≠ 0 ∧ lit.natAbs ≤ intake.reserved

theorem books_init (oracle : Z3 ζ) (limits : SolverLimits) :
    (init oracle limits).Books (.init limits) [] where
  intake_eq := rfl
  clauses_eq := rfl
  inRange := by simp

theorem solve_eq {solver : Z3Solver ζ} {assumptions : List Int} {timeout : Option Nat}
    (hcheck : solver.intake.checkLiterals assumptions = .ok ()) :
    solve oracle assumptions timeout solver =
      (resultOf solver.intake.reserved timeout
        (oracle.check (solver.query assumptions timeout) solver.outside).1,
      { solver with
        outside := (oracle.check (solver.query assumptions timeout) solver.outside).2 }) := by
  have hchecked : SolverM.checked
      (fun solver : Z3Solver ζ => solver.intake.checkLiterals assumptions)
      (fun solver => ((), solver)) solver = (.ok (), solver) := by
    simp only [SolverM.checked, hcheck]
  rw [solve, exceptT_bind_of_ok hchecked]

theorem keepsBooks_backend (h : oracle.Decides timeout) :
    (backend oracle).KeepsBooks timeout Books where
  limits_eq hbooks := congrArg Intake.limits hbooks.intake_eq
  numVars_eq hbooks := congrArg Intake.reserved hbooks.intake_eq
  numClauses_eq hbooks := congrArg Intake.clauseCount hbooks.intake_eq
  reserve := by
    rintro solver _ accepted ⟨rfl, rfl, hrange⟩ maxVar hcheck
    refine ⟨{ solver with intake := solver.intake.reserve maxVar }, ?_, rfl, rfl, ?_⟩
    · simp only [backend, SolverM.checked, hcheck]
    · intro clause hclause lit hlit
      obtain ⟨hnonzero, hle⟩ := hrange clause hclause lit hlit
      exact ⟨hnonzero, hle.trans (Nat.le_max_left _ _)⟩
  addClause := by
    rintro solver _ accepted ⟨rfl, rfl, hrange⟩ lits hcheck
    refine ⟨{ solver with
      intake := solver.intake.accept lits
      clauses := solver.clauses.push lits }, ?_, rfl, Array.toList_push, ?_⟩
    · simp only [backend, SolverM.checked, hcheck]
    · rw [Intake.reserved_accept, List.forall_mem_append, List.forall_mem_singleton]
      exact ⟨hrange, Intake.checkLiterals_eq_ok_iff.mp (Intake.checkLiterals_of_checkClause hcheck)⟩
  solve := by
    rintro solver _ accepted ⟨rfl, rfl, hrange⟩ assumptions hcheck
    have hliterals := Intake.checkLiterals_eq_ok_iff.mp hcheck
    have hanswers := h (solver.query assumptions timeout) solver.outside ⟨hrange, hliterals⟩ rfl
    have hbooks : Books { solver with
        outside := (oracle.check (solver.query assumptions timeout) solver.outside).2 }
        solver.intake solver.clauses.toList := ⟨rfl, rfl, hrange⟩
    have hsolve : (backend oracle).solve assumptions timeout solver = _ := solve_eq hcheck
    cases hanswer : (oracle.check (solver.query assumptions timeout) solver.outside).1 with
    | sat value? =>
        rw [hanswer] at hanswers hsolve
        cases value? with
        | none => exact hanswers.elim
        | some value =>
            refine ⟨_, _, hsolve, hbooks, ?_, hanswers.model hrange hliterals⟩
            exact fun var hvar => Model.trueVars_le Valuation.maxVar_model var hvar
    | unsat =>
        rw [hanswer] at hanswers hsolve
        exact ⟨_, _, hsolve, hbooks, hanswers⟩
    | unknown reason? =>
        rw [hanswer] at hanswers
        exact hanswers.elim

end Z3Solver

end BoundedPlanning
