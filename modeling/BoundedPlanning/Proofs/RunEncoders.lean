import BoundedPlanning.Proofs.Layout
import BoundedPlanning.Proofs.PlanningRounds

namespace BoundedPlanning

namespace PlannerM

variable {σ α β : Type} {first : PlannerM σ α} {rest : α → PlannerM σ β} {solver next : σ} {b : β}

theorem of_ofEncoding_ok {result : Except EncodingError β}
    (h : (ofEncoding result : PlannerM σ β) solver = (.ok b, next)) :
    result = .ok b ∧ next = solver := by
  cases result with
  | error error => cases h
  | ok a =>
      cases h
      exact ⟨rfl, rfl⟩

theorem of_ofSolver_ok {operation : SolverM σ β} (h : ofSolver operation solver = (.ok b, next)) :
    operation solver = (.ok b, next) := by
  cases hresult : operation solver with
  | mk result middle =>
      cases result with
      | error error =>
          rw [ofSolver_of_error hresult] at h
          cases h
      | ok a =>
          rw [ofSolver_of_ok hresult] at h
          cases h
          rfl

end PlannerM

variable {σ : Type} {backend : Backend σ} {problem : Problem} {semantics : StepSemantics}

/-- A step that is submitted fits, can be encoded, and all its calls succeed. -/
theorem exists_of_submitStep_ok {encoder submitted : Encoder problem semantics} {step : Nat}
    {solver next : σ} (h : submitStep backend encoder step solver = (.ok submitted, next)) :
    checkCapacity (backend.limits solver) encoder.index.size (backend.numClauses solver)
      (encoder.stepSize step) step = .ok () ∧
    ∃ delta middle, encoder.encodeStep step = .ok (delta, submitted) ∧
      backend.reserve submitted.index.size solver = (.ok (), middle) ∧
      (delta.forM fun clause => PlannerM.ofSolver (backend.addClause clause.literals)) middle =
        (.ok (), next) := by
  rw [submitStep, exceptT_get_bind] at h
  obtain ⟨_, checked, hcapacity, hencoding⟩ := exists_of_exceptT_bind_ok h
  obtain ⟨hcapacity, hchecked⟩ := PlannerM.of_ofEncoding_ok hcapacity
  obtain ⟨⟨delta, encoded⟩, same, hencode, hcalls⟩ := exists_of_exceptT_bind_ok hencoding
  obtain ⟨hencode, hsame⟩ := PlannerM.of_ofEncoding_ok hencode
  obtain ⟨_, middle, hreserve, hclauses⟩ := exists_of_exceptT_bind_ok hcalls
  obtain ⟨_, after, hadd, hreturn⟩ := exists_of_exceptT_bind_ok hclauses
  cases hreturn
  rw [hsame, hchecked] at hreserve
  exact ⟨hcapacity, delta, middle, hencode, PlannerM.of_ofSolver_ok hreserve, hadd⟩

theorem encodeStep_of_submitStep {encoder submitted : Encoder problem semantics} {step : Nat}
    {solver next : σ} (h : submitStep backend encoder step solver = (.ok submitted, next)) :
    ∃ delta, encoder.encodeStep step = .ok (delta, submitted) := by
  obtain ⟨-, delta, -, hencode, -⟩ := exists_of_submitStep_ok h
  exact ⟨delta, hencode⟩

/-- The encoder that has encoded the steps before the given one, in order. -/
def encoderBefore (problem : Problem) (semantics : StepSemantics) :
    Nat → Except EncodingError (Encoder problem semantics)
  | 0 => .ok (.init problem semantics)
  | step + 1 => (encodeThrough problem semantics step).map Prod.snd

theorem exists_encodeThrough_of_encoderBefore {encoder : Encoder problem semantics} {step : Nat}
    (h : encoderBefore problem semantics (step + 1) = .ok encoder) :
    ∃ clauses, encodeThrough problem semantics step = .ok (clauses, encoder) := by
  rw [encoderBefore] at h
  cases hbefore : encodeThrough problem semantics step with
  | error error =>
      rw [hbefore] at h
      cases h
  | ok before =>
      rw [hbefore] at h
      cases h
      exact ⟨before.1, rfl⟩

theorem exists_encodeThrough {encoder next : Encoder problem semantics} {step : Nat}
    {delta : List Clause} (hencoder : encoderBefore problem semantics step = .ok encoder)
    (h : encoder.encodeStep step = .ok (delta, next)) :
    ∃ clauses, encodeThrough problem semantics step = .ok (clauses ++ delta, next) := by
  cases step with
  | zero =>
      cases hencoder
      exact ⟨[], h⟩
  | succ step =>
      obtain ⟨clauses, hbefore⟩ := exists_encodeThrough_of_encoderBefore hencoder
      exact ⟨clauses, by simp only [encodeThrough, hbefore, h, bind, Except.bind]; rfl⟩

theorem encoderBefore_succ {encoder next : Encoder problem semantics} {step : Nat}
    {delta : List Clause} (hencoder : encoderBefore problem semantics step = .ok encoder)
    (h : encoder.encodeStep step = .ok (delta, next)) :
    encoderBefore problem semantics (step + 1) = .ok next := by
  obtain ⟨clauses, hencode⟩ := exists_encodeThrough hencoder h
  rw [encoderBefore, hencode]
  rfl

theorem ComesTo.encoderBefore_eq {config : PlannerConfig} {solver state : σ} {horizon : Nat}
    {encoder : Encoder problem config.semantics} {stats : Array HorizonStats}
    (h : ComesTo backend config problem solver horizon encoder stats state) :
    encoderBefore problem config.semantics horizon = .ok encoder := by
  induction h with
  | start _ => rfl
  | next _ hsubmit _ _ ih =>
      obtain ⟨delta, hencode⟩ := encodeStep_of_submitStep hsubmit
      exact encoderBefore_succ ih hencode

theorem ComesTo.le_maxSteps {config : PlannerConfig} {solver state : σ} {horizon : Nat}
    {encoder : Encoder problem config.semantics} {stats : Array HorizonStats}
    (h : ComesTo backend config problem solver horizon encoder stats state) :
    horizon ≤ config.maxSteps := by
  cases h with
  | start _ => exact Nat.zero_le _
  | next _ _ _ hlt => exact hlt

end BoundedPlanning
