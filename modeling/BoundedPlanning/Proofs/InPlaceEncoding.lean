import BoundedPlanning.Encoding.Encoder
import BoundedPlanning.Proofs.Except

namespace BoundedPlanning

/-- Computations that change an encoder and may fail; a failure keeps the changes made before it. -/
abbrev EncoderM (problem : Problem) (semantics : StepSemantics) :=
  ExceptT EncodingError (StateM (Encoder problem semantics))

namespace EncoderM

variable {problem : Problem} {semantics : StepSemantics} {α β : Type}

def ofExcept (result : Except EncodingError α) : EncoderM problem semantics α :=
  ExceptT.mk (pure result)

/-- The variable of the entity at the step; nothing is handed out when there is none for it. -/
def idOf (entity : Entity) (step : Nat) : EncoderM problem semantics Nat := fun encoder =>
  match encoder.index.idOf entity step with
  | .ok (var, index) => (.ok var, { encoder with index := index })
  | .error error => (.error error, encoder)

def idsOf (step : Nat) : List Entity → EncoderM problem semantics (List Nat)
  | [] => return []
  | entity :: rest => do
    let var ← idOf entity step
    let vars ← idsOf step rest
    return var :: vars

def transitionVars (step : Nat) : EncoderM problem semantics TransitionVars := do
  let encoder ← get
  let facts := problem.factIds.map Entity.fact
  let actions ← idsOf (step - 1) ((List.range problem.actionCount).map .action)
  let before ← idsOf (step - 1) facts
  let after ← idsOf step facts
  let aux ← idsOf (step - 1) ((List.range encoder.scheme.exclusion.vars).map .aux)
  return ⟨actions.toArray, before.toArray, after.toArray, aux.toArray⟩

/-- Hand out variables, make clauses from them and go on to the next step. -/
def encodeWith (allocate : EncoderM problem semantics α) (lists : α → List (List Int))
    (nextStep : UInt32) : EncoderM problem semantics (List Clause) := do
  let vars ← allocate
  let clauses ← ofExcept (clausesOfLiterals (lists vars))
  modify fun encoder => { encoder with nextStep := nextStep }
  return clauses

def encodeInit : EncoderM problem semantics (List Clause) := do
  let encoder ← get
  if encoder.nextStep ≠ 0 then throw (.outOfOrder encoder.nextStep.toNat 0)
  else
    encodeWith (idsOf 0 (problem.factIds.map .fact))
      (fun vars => vars.zipIdx.map fun (var, fact) => [literal var (problem.init.holds fact)]) 1

def encodeTransition (step : UInt32) : EncoderM problem semantics (List Clause) := do
  let encoder ← get
  if step = 0 ∨ step ≠ encoder.nextStep then
    throw (.outOfOrder encoder.nextStep.toNat step.toNat)
  else
    encodeWith (transitionVars step.toNat)
      (fun vars => vars.clauses problem semantics encoder.scheme) (step + 1)

/-- The computation does to the encoder what the result says; where that is an error, it may have
handed out variables. -/
def Realizes (computation : EncoderM problem semantics α) (encoder : Encoder problem semantics)
    (result : Except EncodingError (α × Encoder problem semantics)) : Prop :=
  match result with
  | .ok (a, next) => computation encoder = (.ok a, next)
  | .error error => ∃ index, computation encoder = (.error error, { encoder with index := index })

/-- The computation changes nothing but the index, as the result says. -/
def HandsOut (computation : EncoderM problem semantics α) (encoder : Encoder problem semantics)
    (result : Except EncodingError (α × VariableIndex)) : Prop :=
  computation.Realizes encoder
    (result.map fun given => (given.1, { encoder with index := given.2 }))

variable {encoder : Encoder problem semantics}

theorem HandsOut.bind {first : EncoderM problem semantics α} {rest : α → EncoderM problem semantics β}
    {result : Except EncodingError (α × VariableIndex)}
    {restResult : α × VariableIndex → Except EncodingError (β × VariableIndex)}
    (hfirst : first.HandsOut encoder result)
    (hrest : ∀ a index, (rest a).HandsOut { encoder with index := index } (restResult (a, index))) :
    (first >>= rest).HandsOut encoder (result >>= restResult) := by
  cases result with
  | error error =>
      obtain ⟨index, hfirst⟩ := hfirst
      exact ⟨index, exceptT_bind_of_error hfirst⟩
  | ok given =>
      obtain ⟨a, index⟩ := given
      have hbind : (first >>= rest) encoder = rest a { encoder with index := index } :=
        exceptT_bind_of_ok hfirst
      show (first >>= rest).HandsOut encoder (restResult (a, index))
      have hhandsOut := hrest a index
      unfold HandsOut Realizes at hhandsOut ⊢
      rw [hbind]
      exact hhandsOut

theorem handsOut_pure (a : α) :
    (pure a : EncoderM problem semantics α).HandsOut encoder (.ok (a, encoder.index)) := rfl

theorem handsOut_idOf (entity : Entity) (step : Nat) :
    (idOf entity step).HandsOut encoder (encoder.index.idOf entity step) := by
  unfold HandsOut Realizes idOf
  cases encoder.index.idOf entity step with
  | ok given => rfl
  | error error => exact ⟨encoder.index, rfl⟩

theorem handsOut_idsOf (entities : List Entity) (step : Nat) :
    (idsOf step entities).HandsOut encoder (encoder.index.idsOf entities step) := by
  induction entities generalizing encoder with
  | nil => exact handsOut_pure []
  | cons entity rest ih =>
      apply (handsOut_idOf entity step).bind
      intro var index
      exact ih.bind fun vars index => handsOut_pure (var :: vars)

theorem handsOut_transitionVars (step : Nat) :
    (transitionVars step).HandsOut encoder (encoder.transitionVars step) := by
  apply (handsOut_idsOf _ _).bind
  intro actions index
  apply (handsOut_idsOf _ _).bind
  intro before index
  apply (handsOut_idsOf _ _).bind
  intro after index
  apply (handsOut_idsOf _ _).bind
  intro aux index
  exact handsOut_pure _

theorem realizes_encodeWith {allocate : EncoderM problem semantics α}
    {lists : α → List (List Int)} {nextStep : UInt32}
    {result : Except EncodingError (α × VariableIndex)} (h : allocate.HandsOut encoder result) :
    (encodeWith allocate lists nextStep).Realizes encoder (result >>= fun given => do
      let clauses ← clausesOfLiterals (lists given.1)
      return (clauses, { encoder with index := given.2, nextStep := nextStep })) := by
  unfold encodeWith
  cases result with
  | error error =>
      obtain ⟨index, hallocate⟩ := h
      exact ⟨index, exceptT_bind_of_error hallocate⟩
  | ok given =>
      obtain ⟨vars, index⟩ := given
      have hallocate : allocate encoder = (.ok vars, { encoder with index := index }) := h
      show Realizes _ encoder (clausesOfLiterals (lists vars) >>= _)
      unfold Realizes
      rw [exceptT_bind_of_ok hallocate]
      cases clausesOfLiterals (lists vars) with
      | error error => exact ⟨index, rfl⟩
      | ok clauses => rfl

theorem encodeInit_of_outOfOrder (h : encoder.nextStep ≠ 0) :
    encodeInit encoder = (.error (.outOfOrder encoder.nextStep.toNat 0), encoder) := by
  rw [encodeInit, exceptT_get_bind, if_pos h]
  rfl

theorem encodeTransition_of_outOfOrder {step : UInt32} (h : step = 0 ∨ step ≠ encoder.nextStep) :
    encodeTransition step encoder =
      (.error (.outOfOrder encoder.nextStep.toNat step.toNat), encoder) := by
  rw [encodeTransition, exceptT_get_bind, if_pos h]
  rfl

theorem realizes_encodeInit : encodeInit.Realizes encoder encoder.encodeInit := by
  unfold Encoder.encodeInit
  split
  · rename_i hstep
    exact ⟨encoder.index, encodeInit_of_outOfOrder hstep⟩
  · rename_i hstep
    have hencode := @realizes_encodeWith _ _ _ _ _
      (fun vars => vars.zipIdx.map fun (var, fact) => [literal var (problem.init.holds fact)]) 1 _
      (@handsOut_idsOf _ _ encoder (problem.factIds.map .fact) 0)
    unfold Realizes at hencode ⊢
    rw [encodeInit, exceptT_get_bind, if_neg hstep]
    exact hencode

theorem realizes_encodeTransition (step : UInt32) :
    (encodeTransition step).Realizes encoder (encoder.encodeTransition step) := by
  unfold Encoder.encodeTransition Encoder.link
  split
  · rename_i hstep
    exact ⟨encoder.index, encodeTransition_of_outOfOrder hstep⟩
  · rename_i hstep
    have hencode := @realizes_encodeWith _ _ _ _ _
      (fun vars => vars.clauses problem semantics encoder.scheme) (step + 1) _
      (@handsOut_transitionVars _ _ encoder step.toNat)
    have hcounter : step.toNat.toUInt32 = step := UInt32.ofNat_toNat
    unfold Realizes at hencode ⊢
    rw [encodeTransition, exceptT_get_bind, if_neg hstep, hcounter]
    exact hencode

end EncoderM

end BoundedPlanning
