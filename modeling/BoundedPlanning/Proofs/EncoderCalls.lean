import BoundedPlanning.Proofs.AccumulatedFormula
import BoundedPlanning.Proofs.InPlaceEncoding

namespace BoundedPlanning

inductive EncoderCall
  | encodeInit
  | encodeTransition (step : UInt32)
  | goalLiterals (horizon : UInt32)
  | stepSize (step : UInt32)
  deriving DecidableEq, Repr

namespace EncoderCall

/-- The call that encodes the step, when it is the next one.  It names the step in 32 bits. -/
def encode (step : Nat) : EncoderCall :=
  if step.toUInt32 = 0 then .encodeInit else .encodeTransition step.toUInt32

def requested? : EncoderCall → Option UInt32
  | .encodeInit => some 0
  | .encodeTransition step => some step
  | _ => none

end EncoderCall

inductive EncoderReply
  | clauses (delta : List Clause)
  | literals (lits : List Int)
  | size (size : StepSize)

structure EncoderExchange where
  call : EncoderCall
  result : Except EncodingError EncoderReply

def EncoderExchange.hasEncoded (exchange : EncoderExchange) : Bool :=
  match exchange.result with
  | .ok (.clauses _) => true
  | _ => false

/-- How many steps are encoded once the calls are made, if it was `steps` before them. -/
def stepsAfter (steps : Nat) (calls : List EncoderCall) : Nat :=
  calls.foldl (fun steps call => if call = .encode steps then steps + 1 else steps) steps

namespace Encoder

variable {problem : Problem} {semantics : StepSemantics}

def perform : EncoderCall → EncoderM problem semantics EncoderReply
  | .encodeInit => do return .clauses (← EncoderM.encodeInit)
  | .encodeTransition step => do return .clauses (← EncoderM.encodeTransition step)
  | .goalLiterals horizon => do
    let lits ← EncoderM.ofExcept ((← get).goalLiterals horizon.toNat)
    return .literals lits
  | .stepSize step => do return .size ((← get).stepSize step.toNat)

def respond (encoder : Encoder problem semantics) (call : EncoderCall) :
    Except EncodingError EncoderReply × Encoder problem semantics :=
  (perform call).run encoder

def respondAll (encoder : Encoder problem semantics) :
    List EncoderCall → List EncoderExchange × Encoder problem semantics
  | [] => ([], encoder)
  | call :: rest =>
    let (result, next) := encoder.respond call
    let (later, last) := next.respondAll rest
    (⟨call, result⟩ :: later, last)

section Calls

variable {encoder next : Encoder problem semantics} {step : Nat} {delta : List Clause}

theorem respond_encode (h : encoder.encodeStep step = .ok (delta, next)) :
    encoder.respond (.encode step) = (.ok (.clauses delta), next) := by
  unfold encodeStep at h
  unfold EncoderCall.encode
  split at h
  · rename_i hzero
    have hencode := @EncoderM.realizes_encodeInit _ _ encoder
    rw [h] at hencode
    rw [if_pos hzero]
    exact exceptT_bind_of_ok hencode
  · rename_i hpos
    have hencode := @EncoderM.realizes_encodeTransition _ _ encoder step.toUInt32
    rw [h] at hencode
    rw [if_neg hpos]
    exact exceptT_bind_of_ok hencode

theorem respond_outOfOrder {call : EncoderCall} {requested : UInt32}
    (hstep : encoder.nextStep = step.toUInt32) (hrequested : call.requested? = some requested)
    (hcall : call ≠ .encode step) :
    encoder.respond call = (.error (.outOfOrder (step % bound32) requested.toNat), encoder) := by
  have hcounter : encoder.nextStep.toNat = step % bound32 := by
    rw [hstep]
    exact UInt32.toNat_ofNat
  rw [EncoderCall.encode, ← hstep] at hcall
  rw [← hcounter]
  cases call with
  | encodeInit =>
      cases hrequested
      have hpos : encoder.nextStep ≠ 0 := by
        intro h
        rw [if_pos h] at hcall
        exact hcall rfl
      exact exceptT_bind_of_error (EncoderM.encodeInit_of_outOfOrder hpos)
  | encodeTransition step =>
      cases hrequested
      have horder : requested = 0 ∨ requested ≠ encoder.nextStep := by
        by_contra h
        obtain ⟨hpos, heq⟩ := not_or.mp h
        rw [← not_not.mp heq, if_neg hpos] at hcall
        exact hcall rfl
      exact exceptT_bind_of_error (EncoderM.encodeTransition_of_outOfOrder horder)
  | goalLiterals _ => cases hrequested
  | stepSize _ => cases hrequested

theorem respond_query {call : EncoderCall} (h : call.requested? = none) :
    ∃ result, encoder.respond call = (result, encoder) ∧
      EncoderExchange.hasEncoded ⟨call, result⟩ = false := by
  cases call with
  | encodeInit => cases h
  | encodeTransition _ => cases h
  | goalLiterals horizon =>
      cases hgoal : encoder.goalLiterals horizon.toNat with
      | error error =>
          refine ⟨.error error, ?_, rfl⟩
          show (perform (.goalLiterals horizon)) encoder = _
          rw [perform, exceptT_get_bind, hgoal]
          rfl
      | ok lits =>
          refine ⟨.ok (.literals lits), ?_, rfl⟩
          show (perform (.goalLiterals horizon)) encoder = _
          rw [perform, exceptT_get_bind, hgoal]
          rfl
  | stepSize step => exact ⟨.ok (.size (encoder.stepSize step.toNat)), rfl, rfl⟩

theorem respond_next (hencoder : encoderBefore problem semantics step = .ok encoder)
    (hlimits : problem.WithinLimits semantics step) :
    ∃ delta next, encoder.respond (.encode step) = (.ok (.clauses delta), next) ∧
      encoderBefore problem semantics (step + 1) = .ok next := by
  obtain ⟨delta, next, hnext⟩ := exists_encodeStep_of_encoderBefore hencoder hlimits
  exact ⟨delta, next, respond_encode hnext, encoderBefore_succ hencoder hnext⟩

/-- Any call but that for the next step leaves the encoder as it is. -/
theorem respond_other (hencoder : encoderBefore problem semantics step = .ok encoder)
    {call : EncoderCall} (hcall : call ≠ .encode step) :
    ∃ result, encoder.respond call = (result, encoder) ∧
      EncoderExchange.hasEncoded ⟨call, result⟩ = false ∧
      ∀ requested, call.requested? = some requested →
        result = .error (.outOfOrder (step % bound32) requested.toNat) := by
  cases hrequested : call.requested? with
  | none =>
      obtain ⟨result, hresult, hencoded⟩ := encoder.respond_query hrequested
      exact ⟨result, hresult, hencoded, by simp⟩
  | some requested =>
      refine ⟨_, respond_outOfOrder (nextStep_of_encoderBefore hencoder) hrequested hcall, rfl, ?_⟩
      rintro _ ⟨⟩
      rfl

end Calls

section Runs

theorem respondAll_append {encoder : Encoder problem semantics} (first second : List EncoderCall) :
    encoder.respondAll (first ++ second) =
      ((encoder.respondAll first).1 ++ ((encoder.respondAll first).2.respondAll second).1,
        ((encoder.respondAll first).2.respondAll second).2) := by
  induction first generalizing encoder with
  | nil => rfl
  | cons call rest ih => simp only [List.cons_append, respondAll, ih]

theorem map_call_respondAll (encoder : Encoder problem semantics) (calls : List EncoderCall) :
    (encoder.respondAll calls).1.map EncoderExchange.call = calls := by
  induction calls generalizing encoder with
  | nil => rfl
  | cons call rest ih => simp only [respondAll, List.map_cons, ih]

end Runs

end Encoder

section Steps

variable {steps : Nat} {call : EncoderCall} {calls : List EncoderCall}

theorem stepsAfter_next : stepsAfter steps (.encode steps :: calls) = stepsAfter (steps + 1) calls := by
  rw [stepsAfter, List.foldl_cons, if_pos rfl]
  rfl

theorem stepsAfter_other (h : call ≠ .encode steps) :
    stepsAfter steps (call :: calls) = stepsAfter steps calls := by
  rw [stepsAfter, List.foldl_cons, if_neg h]
  rfl

theorem stepsAfter_append (first second : List EncoderCall) :
    stepsAfter steps (first ++ second) = stepsAfter (stepsAfter steps first) second :=
  List.foldl_append

theorem le_stepsAfter (steps : Nat) (calls : List EncoderCall) : steps ≤ stepsAfter steps calls := by
  induction calls generalizing steps with
  | nil => exact le_rfl
  | cons call rest ih =>
      by_cases h : call = .encode steps
      · rw [h, stepsAfter_next]
        exact (Nat.le_succ steps).trans (ih (steps + 1))
      · rw [stepsAfter_other h]
        exact ih steps

end Steps

section Order

variable {problem : Problem} {semantics : StepSemantics} {encoder final : Encoder problem semantics}
  {step : Nat} {calls : List EncoderCall} {exchanges : List EncoderExchange}

/-- The calls that encode something are those for the next steps, and they say the same when they
are the only ones. -/
theorem respondAll_encoded (hencoder : encoderBefore problem semantics step = .ok encoder)
    (hlimits : ∀ last < stepsAfter step calls, problem.WithinLimits semantics last)
    (hrun : encoder.respondAll calls = (exchanges, final)) :
    encoderBefore problem semantics (stepsAfter step calls) = .ok final ∧
    encoder.respondAll ((List.range' step (stepsAfter step calls - step)).map .encode) =
      (exchanges.filter EncoderExchange.hasEncoded, final) := by
  induction calls generalizing encoder step exchanges with
  | nil =>
      cases hrun
      refine ⟨hencoder, ?_⟩
      rw [stepsAfter, List.foldl_nil, Nat.sub_self]
      rfl
  | cons call rest ih =>
      by_cases hcall : call = .encode step
      · subst hcall
        have hle := le_stepsAfter (step + 1) rest
        rw [stepsAfter_next] at hlimits ⊢
        obtain ⟨delta, next, hrespond, hnext⟩ := Encoder.respond_next hencoder (hlimits step hle)
        rw [Encoder.respondAll, hrespond] at hrun
        cases hrun
        obtain ⟨hfinal, halone⟩ := ih hnext hlimits rfl
        refine ⟨hfinal, ?_⟩
        obtain ⟨count, hcount⟩ := Nat.exists_eq_add_of_le hle
        rw [hcount, Nat.add_sub_cancel_left] at halone
        have hsub : stepsAfter (step + 1) rest - step = count + 1 := by omega
        rw [hsub, List.range'_succ, List.map_cons, Encoder.respondAll, hrespond]
        dsimp only
        rw [halone]
        rfl
      · rw [stepsAfter_other hcall] at hlimits ⊢
        obtain ⟨result, hrespond, hencoded, -⟩ := Encoder.respond_other hencoder hcall
        rw [Encoder.respondAll, hrespond] at hrun
        cases hrun
        obtain ⟨hfinal, halone⟩ := ih hencoder hlimits rfl
        refine ⟨hfinal, ?_⟩
        rw [halone, List.filter_cons_of_neg (by simp [hencoded])]

theorem blank_of_encoderBefore (hencoder : encoderBefore problem semantics step = .ok encoder)
    (hstep : bound32 ≤ step) : problem.factCount = 0 ∧ problem.actionCount = 0 := by
  obtain ⟨last, rfl⟩ := Nat.exists_eq_succ_of_ne_zero (show step ≠ 0 by unfold bound32 at hstep; omega)
  exact (encodedTo_of_encoderBefore hencoder).blank hstep

/-- A call that is not the next one could as well not have been made. -/
theorem respondAll_erase {before after : List EncoderCall} {call : EncoderCall}
    (hlimits : ∀ last < stepsAfter 0 (before ++ call :: after), problem.WithinLimits semantics last)
    (hrun : (Encoder.init problem semantics).respondAll (before ++ call :: after) = (exchanges, final))
    (hcall : call ≠ .encode (stepsAfter 0 before)) :
    ∃ earlier encoder result later,
      (Encoder.init problem semantics).respondAll before = (earlier, encoder) ∧
      encoder.respond call = (result, encoder) ∧
      exchanges = earlier ++ ⟨call, result⟩ :: later ∧
      (Encoder.init problem semantics).respondAll (before ++ after) = (earlier ++ later, final) ∧
      ∀ requested, call.requested? = some requested →
        result = .error (.outOfOrder (stepsAfter 0 before % bound32) requested.toNat) := by
  have hle : stepsAfter 0 before ≤ stepsAfter 0 (before ++ call :: after) := by
    rw [stepsAfter_append]
    exact le_stepsAfter _ _
  cases hbefore : (Encoder.init problem semantics).respondAll before with
  | mk earlier encoder =>
      obtain ⟨hencoder, -⟩ := respondAll_encoded rfl
        (fun last hlast => hlimits last (hlast.trans_le hle)) hbefore
      obtain ⟨result, hrespond, -, hrejected⟩ := Encoder.respond_other hencoder hcall
      rw [Encoder.respondAll_append, hbefore] at hrun ⊢
      dsimp only at hrun ⊢
      rw [Encoder.respondAll, hrespond] at hrun
      cases hrun
      exact ⟨earlier, encoder, result, _, rfl, hrespond, rfl, rfl, hrejected⟩

def scrambledCalls : List EncoderCall :=
  [.encodeTransition 1, .goalLiterals 0, .encodeInit, .encodeTransition 0, .encodeInit, .stepSize 1,
    .encodeTransition 2, .encodeTransition 1, .goalLiterals 1]

end Order

end BoundedPlanning
