import BoundedPlanning.Proofs.EncodedPlans
import BoundedPlanning.Proofs.RunEncoders
import BoundedPlanning.Proofs.ScriptedSolver
import BoundedPlanning.Proofs.SolverContract

/-!
What the planner and a solver say to each other, whatever the solver replies.  Each step is a round
of calls.  A round breaks off at the first call that fails; otherwise the answer to its last call
decides whether there is another round.
-/

namespace BoundedPlanning

/-- A call and the reply to it.  Only `solve` is replied to with an answer. -/
structure Exchange where
  call : SolverCall
  reply : Except SolverError (Option SolveResult)

/-- A reservation or a clause that the solver took. -/
def Exchange.taken (call : SolverCall) : Exchange := ⟨call, .ok none⟩

theorem map_call_taken (calls : List SolverCall) :
    (calls.map Exchange.taken).map Exchange.call = calls := by
  rw [List.map_map]
  exact List.map_id calls

namespace Backend

variable {σ : Type} {backend : Backend σ}

def reply (backend : Backend σ) (call : SolverCall) (solver : σ) :
    Except SolverError (Option SolveResult) × σ :=
  match call with
  | .reserve maxVar =>
    let (result, next) := backend.reserve maxVar solver
    (result.map fun _ => none, next)
  | .addClause lits =>
    let (result, next) := backend.addClause lits solver
    (result.map fun _ => none, next)
  | .solve assumptions timeout =>
    let (result, next) := backend.solve assumptions timeout solver
    (result.map some, next)

/-- What the solver replies to calls made one after the other, and the state they leave it in. -/
inductive Replies (backend : Backend σ) : σ → List Exchange → σ → Prop
  | nil (solver : σ) : Replies backend solver [] solver
  | cons {solver middle last : σ} {call : SolverCall}
      {result : Except SolverError (Option SolveResult)} {rest : List Exchange}
      (hreply : backend.reply call solver = (result, middle))
      (hrest : Replies backend middle rest last) :
      Replies backend solver (⟨call, result⟩ :: rest) last

theorem Replies.append {solver middle last : σ} {first second : List Exchange}
    (hfirst : backend.Replies solver first middle) (hsecond : backend.Replies middle second last) :
    backend.Replies solver (first ++ second) last := by
  induction hfirst with
  | nil _ => exact hsecond
  | cons hreply _ ih => exact .cons hreply (ih hsecond)

theorem Replies.concat {solver middle last : σ} {exchanges : List Exchange} {call : SolverCall}
    {result : Except SolverError (Option SolveResult)}
    (h : backend.Replies solver exchanges middle)
    (hreply : backend.reply call middle = (result, last)) :
    backend.Replies solver (exchanges ++ [⟨call, result⟩]) last :=
  h.append (.cons hreply (.nil last))

end Backend

structure Round where
  maxVar : Nat
  clauses : List Clause
  goal : List Int

namespace Round

def calls (timeout : Option Nat) (round : Round) : List SolverCall :=
  submissionCalls round.maxVar round.clauses ++ [.solve round.goal timeout]

def answered (timeout : Option Nat) (result : SolveResult) (round : Round) : List Exchange :=
  (submissionCalls round.maxVar round.clauses).map .taken ++
    [⟨.solve round.goal timeout, .ok (some result)⟩]

theorem map_call_answered (timeout : Option Nat) (result : SolveResult) (round : Round) :
    (round.answered timeout result).map Exchange.call = round.calls timeout := by
  rw [answered, List.map_append, map_call_taken]
  rfl

end Round

/-- The round of a step: its clauses are those that the step adds to the encoding. -/
def encodedRound (problem : Problem) (semantics : StepSemantics) (step : Nat) :
    Except EncodingError Round := do
  let encoder ← encoderBefore problem semantics step
  let (clauses, next) ← encoder.encodeStep step
  let goal ← next.goalLiterals step
  return ⟨next.index.size, clauses, goal⟩

namespace Backend

variable {σ : Type}

/-- The step is given up before its first call: it exceeds a cap, or it cannot be encoded. -/
def GivesUp (backend : Backend σ) (problem : Problem) (semantics : StepSemantics) (step : Nat)
    (solver : σ) : Prop :=
  ∃ encoder error, encoderBefore problem semantics step = .ok encoder ∧
    (checkCapacity (backend.limits solver) encoder.index.size (backend.numClauses solver)
        (encoder.stepSize step) step = .error error ∨
      encoder.encodeStep step = .error error)

/-- The exchanges from a step on, and the states of the solver before and after them. -/
inductive Protocol (backend : Backend σ) (config : PlannerConfig) (problem : Problem) :
    Nat → σ → List Exchange → σ → Prop
  | givenUp {step : Nat} {solver : σ}
      (h : backend.GivesUp problem config.semantics step solver) :
      Protocol backend config problem step solver [] solver
  | failed {step : Nat} {solver last : σ} {round : Round} {before after : List SolverCall}
      {call : SolverCall} {error : SolverError}
      (hround : encodedRound problem config.semantics step = .ok round)
      (hcalls : round.calls config.timeoutMs? = before ++ call :: after)
      (hreplies : backend.Replies solver (before.map .taken ++ [⟨call, .error error⟩]) last) :
      Protocol backend config problem step solver (before.map .taken ++ [⟨call, .error error⟩]) last
  | answered {step : Nat} {solver last : σ} {round : Round} {result : SolveResult}
      (hround : encodedRound problem config.semantics step = .ok round)
      (hreplies : backend.Replies solver (round.answered config.timeoutMs? result) last)
      (hlast : result = .unsat → step = config.maxSteps) :
      Protocol backend config problem step solver (round.answered config.timeoutMs? result) last
  | next {step : Nat} {solver middle last : σ} {round : Round} {later : List Exchange}
      (hround : encodedRound problem config.semantics step = .ok round)
      (hreplies : backend.Replies solver (round.answered config.timeoutMs? .unsat) middle)
      (hlt : step < config.maxSteps)
      (hlater : Protocol backend config problem (step + 1) middle later last) :
      Protocol backend config problem step solver
        (round.answered config.timeoutMs? .unsat ++ later) last

/-- What comes of calls that the solver has only to take: it takes all, or fails at one of them. -/
inductive Submission (backend : Backend σ) (solver : σ) (calls : List SolverCall) :
    Except SolverError Unit → List Exchange → σ → Prop
  | taken {last : σ} (hreplies : backend.Replies solver (calls.map .taken) last) :
      Submission backend solver calls (.ok ()) (calls.map .taken) last
  | failed {last : σ} {before after : List SolverCall} {call : SolverCall} {error : SolverError}
      (hcalls : calls = before ++ call :: after)
      (hreplies : backend.Replies solver (before.map .taken ++ [⟨call, .error error⟩]) last) :
      Submission backend solver calls (.error error) (before.map .taken ++ [⟨call, .error error⟩])
        last

variable {backend : Backend σ} {solver middle last : σ}

theorem submission_of_error {call : SolverCall} {calls : List SolverCall} {error : SolverError}
    (hreply : backend.reply call solver = (.error error, last)) :
    backend.Submission solver (call :: calls) (.error error) [⟨call, .error error⟩] last :=
  .failed (show call :: calls = [] ++ call :: calls from rfl) (.cons hreply (.nil last))

theorem Submission.cons {call : SolverCall} {calls : List SolverCall}
    {result : Except SolverError Unit} {exchanges : List Exchange}
    (hreply : backend.reply call solver = (.ok none, middle))
    (h : backend.Submission middle calls result exchanges last) :
    backend.Submission solver (call :: calls) result (.taken call :: exchanges) last := by
  cases h with
  | taken hreplies => exact .taken (.cons hreply hreplies)
  | @failed _ before after other error hcalls hreplies =>
      exact .failed (show call :: calls = (call :: before) ++ other :: after from
        congrArg (call :: ·) hcalls) (.cons hreply hreplies)

end Backend

/-- A scripted solver whose script is used up and that has received the given calls. -/
def Scripted.received {σ : Type} (solver : σ) (calls : List SolverCall) : Scripted σ :=
  ⟨solver, [], calls.toArray⟩

section Logging

variable {σ : Type} {backend : Backend σ} {problem : Problem} {semantics : StepSemantics}

open Scripted (received)

theorem reserve_received (maxVar : Nat) (solver : σ) (earlier : List SolverCall) :
    (Scripted.backend backend).reserve maxVar (received solver earlier) =
      ((backend.reserve maxVar solver).1,
        received (backend.reserve maxVar solver).2 (earlier ++ [.reserve maxVar])) := by
  rw [received, Scripted.reserve_eq, List.push_toArray]
  rfl

theorem addClause_received (lits : List Int) (solver : σ) (earlier : List SolverCall) :
    (Scripted.backend backend).addClause lits (received solver earlier) =
      ((backend.addClause lits solver).1,
        received (backend.addClause lits solver).2 (earlier ++ [.addClause lits])) := by
  rw [received, Scripted.addClause_eq, List.push_toArray]
  rfl

theorem solve_received (assumptions : List Int) (timeout : Option Nat) (solver : σ)
    (earlier : List SolverCall) :
    (Scripted.backend backend).solve assumptions timeout (received solver earlier) =
      ((backend.solve assumptions timeout solver).1,
        received (backend.solve assumptions timeout solver).2
          (earlier ++ [.solve assumptions timeout])) := by
  rw [received, Scripted.solve_eq_of_nil, List.push_toArray]
  rfl

theorem exists_submission_addClauses (clauses : List Clause) (solver : σ)
    (earlier : List SolverCall) :
    ∃ result exchanges last,
      backend.Submission solver (clauses.map fun clause => .addClause clause.literals) result
        exchanges last ∧
      (clauses.forM fun clause =>
          PlannerM.ofSolver ((Scripted.backend backend).addClause clause.literals))
        (received solver earlier) =
          (result.mapError .solver, received last (earlier ++ exchanges.map Exchange.call)) := by
  induction clauses generalizing solver earlier with
  | nil => exact ⟨_, _, solver, .taken (.nil solver), by simp [pure, ExceptT.pure, received]; rfl⟩
  | cons clause rest ih =>
      cases hadd : backend.addClause clause.literals solver with
      | mk added middle =>
      have hlogged :
          (Scripted.backend backend).addClause clause.literals (received solver earlier) =
            (added, received middle (earlier ++ [.addClause clause.literals])) := by
        rw [addClause_received, hadd]
      have hreply : backend.reply (.addClause clause.literals) solver =
          (added.map fun _ => none, middle) := by
        rw [Backend.reply, hadd]
      cases added with
      | error error =>
          refine ⟨_, _, middle, Backend.submission_of_error hreply, ?_⟩
          exact exceptT_bind_of_error (PlannerM.ofSolver_of_error hlogged)
      | ok _ =>
          obtain ⟨result, exchanges, last, hsubmission, hrun⟩ :=
            ih middle (earlier ++ [.addClause clause.literals])
          refine ⟨result, _, last, hsubmission.cons hreply, ?_⟩
          rw [List.forM, exceptT_bind_of_ok (PlannerM.ofSolver_of_ok hlogged), hrun,
            List.append_assoc]
          rfl

theorem exists_submission_submitStep {encoder next : Encoder problem semantics} {step : Nat}
    {solver : σ} {delta : List Clause} (earlier : List SolverCall)
    (hcapacity : checkCapacity ((Scripted.backend backend).limits (received solver earlier))
      encoder.index.size ((Scripted.backend backend).numClauses (received solver earlier))
      (encoder.stepSize step) step = .ok ())
    (hencode : encoder.encodeStep step = .ok (delta, next)) :
    ∃ result exchanges last,
      backend.Submission solver (submissionCalls next.index.size delta) result exchanges last ∧
      submitStep (Scripted.backend backend) encoder step (received solver earlier) =
        ((result.mapError .solver).map fun _ => next,
          received last (earlier ++ exchanges.map Exchange.call)) := by
  rw [submitStep_of_encodeStep_ok hcapacity hencode]
  cases hreserve : backend.reserve next.index.size solver with
  | mk reserved middle =>
  have hlogged : (Scripted.backend backend).reserve next.index.size (received solver earlier) =
      (reserved, received middle (earlier ++ [.reserve next.index.size])) := by
    rw [reserve_received, hreserve]
  have hreply : backend.reply (.reserve next.index.size) solver =
      (reserved.map fun _ => none, middle) := by
    rw [Backend.reply, hreserve]
  cases reserved with
  | error error =>
      refine ⟨_, _, middle, Backend.submission_of_error hreply, ?_⟩
      exact exceptT_bind_of_error (PlannerM.ofSolver_of_error hlogged)
  | ok _ =>
      obtain ⟨result, exchanges, last, hsubmission, hrun⟩ :=
        exists_submission_addClauses delta middle (earlier ++ [.reserve next.index.size])
      refine ⟨result, _, last, hsubmission.cons hreply, ?_⟩
      rw [exceptT_bind_of_ok (PlannerM.ofSolver_of_ok hlogged)]
      rw [List.append_assoc] at hrun
      cases result with
      | error error => exact exceptT_bind_of_error hrun
      | ok _ => exact exceptT_bind_of_ok hrun

theorem submitStep_of_givesUp {encoder : Encoder problem semantics} {step : Nat} {solver : σ}
    (hencoder : encoderBefore problem semantics step = .ok encoder)
    (h : backend.GivesUp problem semantics step solver) (earlier : List SolverCall) :
    ∃ error, submitStep (Scripted.backend backend) encoder step (received solver earlier) =
      (.error error, received solver earlier) := by
  obtain ⟨same, error, hsame, hfails⟩ := h
  obtain rfl := Except.ok.inj (hencoder.symm.trans hsame)
  cases hcapacity : checkCapacity ((Scripted.backend backend).limits (received solver earlier))
      encoder.index.size ((Scripted.backend backend).numClauses (received solver earlier))
      (encoder.stepSize step) step with
  | error other => exact ⟨_, submitStep_of_capacity_error hcapacity⟩
  | ok _ =>
      rcases hfails with hfails | hencode
      · cases hcapacity.symm.trans hfails
      · exact ⟨_, submitStep_of_encodeStep_error hcapacity hencode⟩

/-- A round that is not given up follows the protocol if the rounds after it do. -/
theorem exists_protocol_of_round {config : PlannerConfig}
    {encoder next : Encoder problem config.semantics} {horizon : Nat} {delta : List Clause}
    {solver : σ} {earlier : List SolverCall} (hle : horizon ≤ config.maxSteps)
    (hencoder : encoderBefore problem config.semantics horizon = .ok encoder)
    (hcapacity : checkCapacity ((Scripted.backend backend).limits (received solver earlier))
      encoder.index.size ((Scripted.backend backend).numClauses (received solver earlier))
      (encoder.stepSize horizon) horizon = .ok ())
    (hencode : encoder.encodeStep horizon = .ok (delta, next)) (stats : Array HorizonStats)
    (hlater : horizon < config.maxSteps → ∀ stats middle calls, ∃ exchanges last,
      (deepen (Scripted.backend backend) config.timeoutMs? config.maxSteps next (horizon + 1) stats
        (received middle calls)).2 = received last (calls ++ exchanges.map Exchange.call) ∧
      backend.Protocol config problem (horizon + 1) middle exchanges last) :
    ∃ exchanges last,
      (deepen (Scripted.backend backend) config.timeoutMs? config.maxSteps encoder horizon stats
        (received solver earlier)).2 = received last (earlier ++ exchanges.map Exchange.call) ∧
      backend.Protocol config problem horizon solver exchanges last := by
  obtain ⟨clauses, hthrough⟩ := exists_encodeThrough hencoder hencode
  obtain ⟨vars, hreads⟩ := Encoder.exists_reads hthrough
  obtain ⟨goal, hgoal, -⟩ := hreads.encodedTo.exists_goalLiterals
  let round : Round := ⟨next.index.size, delta, goal⟩
  have hround : encodedRound problem config.semantics horizon = .ok round := by
    simp only [encodedRound, hencoder, hencode, hgoal, bind, Except.bind]
    rfl
  obtain ⟨result, exchanges, middle, hsubmission, hsubmit⟩ :=
    exists_submission_submitStep earlier hcapacity hencode
  cases hsubmission with
  | @failed _ before after call error hcalls hreplies =>
      have hsplit : round.calls config.timeoutMs? =
          before ++ call :: (after ++ [.solve goal config.timeoutMs?]) := by
        rw [Round.calls, hcalls, List.append_assoc, List.cons_append]
      refine ⟨_, middle, ?_, .failed hround hsplit hreplies⟩
      rw [deepen_of_submitStep_error hsubmit]
  | taken htaken =>
      rw [map_call_taken] at hsubmit
      cases hsolve : backend.solve goal config.timeoutMs? middle with
      | mk result last =>
      have hreply : backend.reply (.solve goal config.timeoutMs?) middle =
          (result.map some, last) := by
        rw [Backend.reply, hsolve]
      have hlogged : (Scripted.backend backend).solve goal config.timeoutMs?
          (received middle (earlier ++ submissionCalls next.index.size delta)) =
            (result, received last (earlier ++ round.calls config.timeoutMs?)) := by
        rw [solve_received, hsolve, List.append_assoc]
        rfl
      cases result with
      | error error =>
          refine ⟨_, last, ?_, .failed hround rfl (htaken.concat hreply)⟩
          rw [deepen_of_solveHorizon_error hsubmit (solveHorizon_of_error hgoal hlogged),
            List.map_append, map_call_taken]
          rfl
      | ok result =>
          have hreplies : backend.Replies solver (round.answered config.timeoutMs? result) last :=
            htaken.concat hreply
          rw [← Round.map_call_answered config.timeoutMs? result] at hlogged
          rw [deepen_of_solveHorizon_ok hsubmit (solveHorizon_of_ok hgoal hlogged)]
          cases result with
          | sat model => exact ⟨_, last, rfl, .answered hround hreplies nofun⟩
          | timedOut => exact ⟨_, last, rfl, .answered hround hreplies nofun⟩
          | unsat =>
              rw [afterSolving]
              split
              · rename_i hlt
                obtain ⟨later, final, hrun, hprotocol⟩ := hlater hlt _ last _
                refine ⟨_, final, hrun.trans ?_, .next hround hreplies hlt hprotocol⟩
                rw [List.map_append, List.append_assoc]
              · exact ⟨_, last, rfl, .answered hround hreplies fun _ => by omega⟩

theorem exists_protocol_deepen {config : PlannerConfig} {horizon : Nat}
    {encoder : Encoder problem config.semantics} (hle : horizon ≤ config.maxSteps)
    (hencoder : encoderBefore problem config.semantics horizon = .ok encoder)
    (stats : Array HorizonStats) (solver : σ) (earlier : List SolverCall) :
    ∃ exchanges last,
      (deepen (Scripted.backend backend) config.timeoutMs? config.maxSteps encoder horizon stats
        (received solver earlier)).2 = received last (earlier ++ exchanges.map Exchange.call) ∧
      backend.Protocol config problem horizon solver exchanges last := by
  -- The number of horizons still to try goes down.
  induction hleft : config.maxSteps - horizon using Nat.strongRecOn
    generalizing horizon encoder stats solver earlier with
  | ind left ih =>
  by_cases hgivesUp : backend.GivesUp problem config.semantics horizon solver
  · obtain ⟨error, hsubmit⟩ := submitStep_of_givesUp hencoder hgivesUp earlier
    refine ⟨[], solver, ?_, .givenUp hgivesUp⟩
    rw [deepen_of_submitStep_error hsubmit, List.map_nil, List.append_nil]
  · cases hcapacity : checkCapacity ((Scripted.backend backend).limits (received solver earlier))
        encoder.index.size ((Scripted.backend backend).numClauses (received solver earlier))
        (encoder.stepSize horizon) horizon with
    | error error => exact absurd ⟨encoder, error, hencoder, Or.inl hcapacity⟩ hgivesUp
    | ok _ =>
    cases hencode : encoder.encodeStep horizon with
    | error error => exact absurd ⟨encoder, error, hencoder, Or.inr hencode⟩ hgivesUp
    | ok step =>
    obtain ⟨delta, next⟩ := step
    refine exists_protocol_of_round hle hencoder hcapacity hencode stats
      fun hlt stats middle calls => ?_
    exact ih (config.maxSteps - (horizon + 1)) (by omega) hlt (encoderBefore_succ hencoder hencode)
      stats middle calls rfl

/-- A run follows the protocol, unless the goal is ruled out before any call. -/
theorem exists_protocol_planWith (backend : Backend σ) (config : PlannerConfig)
    (hpossible : problem.goalPossiblyReachable = true) (solver : σ) :
    ∃ exchanges last,
      (planWith (Scripted.backend backend) config problem (received solver [])).2 =
        received last (exchanges.map Exchange.call) ∧
      backend.Protocol config problem 0 solver exchanges last := by
  rw [planWith, if_pos hpossible]
  exact exists_protocol_deepen (Nat.zero_le _) rfl #[] solver []

end Logging

end BoundedPlanning
