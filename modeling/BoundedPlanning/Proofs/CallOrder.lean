import BoundedPlanning.Proofs.CallProtocol
import BoundedPlanning.Proofs.PlannerCorrectness

namespace BoundedPlanning

namespace SolverCall

def isSolve : SolverCall → Bool
  | .solve _ _ => true
  | _ => false

def literals : SolverCall → List Int
  | .reserve _ => []
  | .addClause lits => lits
  | .solve assumptions _ => assumptions

def ceiling (announced : Nat) : SolverCall → Nat
  | .reserve maxVar => maxVar
  | _ => announced

end SolverCall

/-- All variables that the calls mention are at most the one announced last. -/
def WithinCeiling : Nat → List SolverCall → Prop
  | _, [] => True
  | announced, call :: rest =>
    (∀ lit ∈ call.literals, lit.natAbs ≤ announced) ∧ WithinCeiling (call.ceiling announced) rest

def solveCount (exchanges : List Exchange) : Nat :=
  exchanges.countP fun exchange => exchange.call.isSolve

theorem solveCount_append (first second : List Exchange) :
    solveCount (first ++ second) = solveCount first + solveCount second :=
  List.countP_append

theorem solveCount_taken {calls : List SolverCall} (h : ∀ call ∈ calls, call.isSolve = false) :
    solveCount (calls.map .taken) = 0 := by
  rw [solveCount, List.countP_eq_zero, List.forall_mem_map]
  intro call hcall
  simp [Exchange.taken, h call hcall]

theorem isSolve_of_mem_submissionCalls {maxVar : Nat} {clauses : List Clause} :
    ∀ call ∈ submissionCalls maxVar clauses, call.isSolve = false := by
  rw [submissionCalls, List.forall_mem_cons, List.forall_mem_map]
  exact ⟨rfl, fun _ _ => rfl⟩

namespace Round

variable {round : Round} {timeout : Option Nat}

/-- Only the last call of a round is a call of `solve`. -/
theorem isSolve_of_mem_before {before after : List SolverCall} {call : SolverCall}
    (h : round.calls timeout = before ++ call :: after) :
    ∀ earlier ∈ before, earlier.isSolve = false := by
  intro earlier hearlier
  rw [calls] at h
  rcases List.append_eq_append_iff.mp h with ⟨rest, rfl, hrest⟩ | ⟨rest, hbefore, -⟩
  · rcases List.mem_append.mp hearlier with hmem | hmem
    · exact isSolve_of_mem_submissionCalls earlier hmem
    · -- Nothing follows the call of solve.
      cases rest with
      | nil => cases hmem
      | cons _ rest => simp at hrest
  · exact isSolve_of_mem_submissionCalls earlier (hbefore ▸ List.mem_append_left _ hearlier)

theorem solveCount_answered (result : SolveResult) :
    solveCount (round.answered timeout result) = 1 := by
  rw [answered, solveCount_append, solveCount_taken isSolve_of_mem_submissionCalls]
  rfl

end Round

/-- An exchange is one of the calls taken, the one after them, or one of a later round. -/
theorem split_exchanges {calls : List SolverCall} {middle exchange : Exchange}
    {later before after : List Exchange}
    (h : calls.map .taken ++ middle :: later = before ++ exchange :: after) :
    (∃ earlier call rest, calls = earlier ++ call :: rest ∧ before = earlier.map .taken ∧
      exchange = .taken call) ∨
    (before = calls.map .taken ∧ exchange = middle ∧ after = later) ∨
    ∃ between, before = calls.map .taken ++ middle :: between ∧
      later = between ++ exchange :: after := by
  rcases List.append_eq_append_iff.mp h with ⟨rest, rfl, hrest⟩ | ⟨rest, hcalls, hrest⟩
  · cases rest with
    | nil =>
        cases hrest
        exact Or.inr (Or.inl ⟨by simp, rfl, rfl⟩)
    | cons _ between =>
        cases hrest
        exact Or.inr (Or.inr ⟨between, rfl, rfl⟩)
  · cases rest with
    | nil =>
        cases hrest
        exact Or.inr (Or.inl ⟨by simpa using hcalls.symm, rfl, rfl⟩)
    | cons _ rest =>
        cases hrest
        obtain ⟨earlier, others, rfl, rfl, hothers⟩ := List.map_eq_append_iff.mp hcalls
        obtain ⟨call, others, rfl, rfl, -⟩ := List.map_eq_cons_iff.mp hothers
        exact Or.inl ⟨earlier, call, others, rfl, rfl, rfl⟩

/-- An exchange of some rounds belongs to the first one, or the rounds after it have it. -/
theorem Round.exchange_cases {round : Round} {timeout : Option Nat} {calls rest : List SolverCall}
    {call : SolverCall} {reply : Except SolverError (Option SolveResult)}
    {later before after : List Exchange} {exchange : Exchange}
    (hcalls : round.calls timeout = calls ++ call :: rest)
    (hsplit : calls.map .taken ++ ⟨call, reply⟩ :: later = before ++ exchange :: after) :
    (solveCount before = 0 ∧ exchange.call ∈ round.calls timeout ∧
      (exchange = .taken exchange.call ∧ exchange.call.isSolve = false ∨
        exchange.reply = reply ∧ after = later)) ∨
    ∃ between, before = calls.map .taken ++ ⟨call, reply⟩ :: between ∧
      later = between ++ exchange :: after := by
  have hsolve := Round.isSolve_of_mem_before hcalls
  rcases split_exchanges hsplit with
    ⟨earlier, found, others, rfl, rfl, rfl⟩ | ⟨rfl, rfl, rfl⟩ | hlater
  · rw [List.forall_mem_append, List.forall_mem_cons] at hsolve
    refine Or.inl ⟨solveCount_taken hsolve.1, ?_, Or.inl ⟨rfl, hsolve.2.1⟩⟩
    rw [hcalls]
    exact List.mem_append_left _ (List.mem_append_right _ List.mem_cons_self)
  · refine Or.inl ⟨solveCount_taken hsolve, ?_, Or.inr ⟨rfl, rfl⟩⟩
    rw [hcalls]
    exact List.mem_append_right _ List.mem_cons_self
  · exact Or.inr hlater

section Ceiling

variable {announced : Nat} {first second : List SolverCall}

theorem withinCeiling_of_forall {calls : List SolverCall}
    (h : ∀ call ∈ calls, call.ceiling announced = announced ∧
      ∀ lit ∈ call.literals, lit.natAbs ≤ announced) : WithinCeiling announced calls := by
  induction calls with
  | nil => trivial
  | cons call rest ih =>
      rw [List.forall_mem_cons] at h
      refine ⟨h.1.2, ?_⟩
      rw [h.1.1]
      exact ih h.2

theorem WithinCeiling.append (hfirst : WithinCeiling announced first)
    (hsecond : ∀ announced, WithinCeiling announced second) :
    WithinCeiling announced (first ++ second) := by
  induction first generalizing announced with
  | nil => exact hsecond announced
  | cons call rest ih => exact ⟨hfirst.1, ih hfirst.2⟩

theorem WithinCeiling.beginning (h : WithinCeiling announced second) (hbegins : first <+: second) :
    WithinCeiling announced first := by
  induction first generalizing announced second with
  | nil => trivial
  | cons call rest ih =>
      obtain ⟨later, rfl⟩ := hbegins
      exact ⟨h.1, ih h.2 (List.prefix_append rest later)⟩

end Ceiling

section Encoded

variable {problem : Problem} {semantics : StepSemantics} {step : Nat} {round : Round}

theorem exists_encodeStep_of_encodedRound
    (h : encodedRound problem semantics step = .ok round) :
    ∃ encoder next, encoderBefore problem semantics step = .ok encoder ∧
      encoder.encodeStep step = .ok (round.clauses, next) ∧
      next.goalLiterals step = .ok round.goal ∧ round.maxVar = next.index.size := by
  obtain ⟨encoder, hencoder, h⟩ := except_bind_eq_ok h
  obtain ⟨⟨clauses, next⟩, hencode, h⟩ := except_bind_eq_ok h
  obtain ⟨goal, hgoal, h⟩ := except_bind_eq_ok h
  cases h
  exact ⟨encoder, next, hencoder, hencode, hgoal, rfl⟩

theorem withinCeiling_calls (h : encodedRound problem semantics step = .ok round)
    (timeout : Option Nat) (announced : Nat) : WithinCeiling announced (round.calls timeout) := by
  obtain ⟨encoder, next, hencoder, hencode, hgoal, hmaxVar⟩ := exists_encodeStep_of_encodedRound h
  obtain ⟨clauses, hthrough⟩ := exists_encodeThrough hencoder hencode
  obtain ⟨vars, hreads⟩ := Encoder.exists_reads hthrough
  obtain ⟨goal, hfound, hrange, -⟩ := hreads.encodedTo.exists_goalLiterals
  obtain rfl := Except.ok.inj (hfound.symm.trans hgoal)
  refine ⟨by simp [SolverCall.literals], withinCeiling_of_forall ?_⟩
  rw [SolverCall.ceiling, List.append_eq, List.forall_mem_append, List.forall_mem_map,
    List.forall_mem_singleton, hmaxVar]
  exact ⟨fun clause hclause => ⟨rfl, hreads.natAbs_le clause (List.mem_append_right _ hclause)⟩,
    rfl, fun lit hlit => (hrange lit hlit).2⟩

theorem two_le_length_of_encodedRound
    (h : encodedRound problem semantics (step + 1) = .ok round) {lits : List Int}
    {timeout : Option Nat} (hcall : .addClause lits ∈ round.calls timeout) : 2 ≤ lits.length := by
  obtain ⟨encoder, next, hencoder, hencode, -⟩ := exists_encodeStep_of_encodedRound h
  obtain ⟨clauses, hthrough⟩ := exists_encodeThrough_of_encoderBefore hencoder
  obtain ⟨vars, hreads⟩ := Encoder.exists_reads hthrough
  obtain ⟨transition, hextends⟩ := Encoder.exists_extends hreads.encodedTo hencode
  simp only [Round.calls, submissionCalls, List.cons_append, List.mem_cons, List.mem_append,
    List.mem_map, List.not_mem_nil, or_false, reduceCtorEq, false_or] at hcall
  obtain ⟨clause, hclause, hlits⟩ := hcall
  obtain rfl := SolverCall.addClause.inj hlits
  exact hextends.two_le_length clause hclause

end Encoded

namespace Backend.Protocol

variable {σ : Type} {backend : Backend σ} {config : PlannerConfig} {problem : Problem} {step : Nat}
  {solver last : σ} {exchanges : List Exchange}

theorem replies (h : backend.Protocol config problem step solver exchanges last) :
    backend.Replies solver exchanges last := by
  induction h with
  | givenUp _ => exact .nil _
  | failed _ _ hreplies => exact hreplies
  | answered _ hreplies _ => exact hreplies
  | next _ hreplies _ _ ih => exact hreplies.append ih

theorem exists_rounds (h : backend.Protocol config problem step solver exchanges last)
    (hle : step ≤ config.maxSteps) :
    ∃ rounds, (List.range' step rounds.length).mapM (encodedRound problem config.semantics) =
        .ok rounds ∧
      step + rounds.length ≤ config.maxSteps + 1 ∧
      exchanges.map Exchange.call <+: rounds.flatMap (Round.calls config.timeoutMs?) := by
  have hone : ∀ {step round}, encodedRound problem config.semantics step = .ok round →
      (List.range' step [round].length).mapM (encodedRound problem config.semantics) =
        .ok [round] := by
    intro step round hround
    rw [List.length_singleton, List.range'_one, List.mapM_cons, hround]
    rfl
  induction h with
  | givenUp _ => exact ⟨[], rfl, by simpa using Nat.le_succ_of_le hle, List.nil_prefix⟩
  | failed hround hcalls _ =>
      refine ⟨_, hone hround, by simpa using hle, ?_⟩
      rw [List.flatMap_singleton, hcalls, List.map_append, map_call_taken]
      exact (List.prefix_append_right_inj _).mpr (List.cons_prefix_cons.mpr ⟨rfl, List.nil_prefix⟩)
  | answered hround _ _ =>
      refine ⟨_, hone hround, by simpa using hle, ?_⟩
      simp only [List.flatMap_singleton, Round.map_call_answered, List.prefix_rfl]
  | @next step _ _ _ round _ hround _ hlt _ ih =>
      obtain ⟨rounds, hrounds, hlength, hbegins⟩ := ih hlt
      refine ⟨round :: rounds, ?_, by rw [List.length_cons]; omega, ?_⟩
      · rw [List.length_cons, List.range'_succ, List.mapM_cons, hround]
        simp only [hrounds, bind, Except.bind]
        rfl
      · rw [List.map_append, Round.map_call_answered, List.flatMap_cons]
        exact (List.prefix_append_right_inj _).mpr hbegins

/-- Each call belongs to the round that the number of answers before it says.  Another call follows
only if it was taken, or if it was answered that there is no plan and a horizon is left. -/
theorem of_split (h : backend.Protocol config problem step solver exchanges last)
    {before after : List Exchange} {exchange : Exchange}
    (hsplit : exchanges = before ++ exchange :: after) :
    ∃ round, encodedRound problem config.semantics (step + solveCount before) = .ok round ∧
      exchange.call ∈ round.calls config.timeoutMs? ∧
      (after ≠ [] → exchange = .taken exchange.call ∧ exchange.call.isSolve = false ∨
        exchange.reply = .ok (some .unsat) ∧ step + solveCount before < config.maxSteps) := by
  induction h generalizing before with
  | givenUp _ => simp at hsplit
  | failed hround hcalls _ =>
      rcases Round.exchange_cases hcalls hsplit with ⟨hcount, hmem, hreply⟩ | ⟨between, -, hlater⟩
      · rw [hcount]
        refine ⟨_, hround, hmem, fun hafter => Or.inl (hreply.resolve_right ?_)⟩
        exact fun hlast => hafter hlast.2
      · simp at hlater
  | answered hround _ _ =>
      rcases Round.exchange_cases rfl hsplit with ⟨hcount, hmem, hreply⟩ | ⟨between, -, hlater⟩
      · rw [hcount]
        refine ⟨_, hround, hmem, fun hafter => Or.inl (hreply.resolve_right ?_)⟩
        exact fun hlast => hafter hlast.2
      · simp at hlater
  | @next step _ _ _ round later hround _ hlt _ ih =>
      rw [Round.answered, List.append_assoc, List.singleton_append] at hsplit
      rcases Round.exchange_cases rfl hsplit with
        ⟨hcount, hmem, hreply⟩ | ⟨between, hbefore, hlater⟩
      · rw [hcount]
        exact ⟨round, hround, hmem, fun _ => hreply.imp_right fun hlast => ⟨hlast.1, hlt⟩⟩
      · have hsplit : before = round.answered config.timeoutMs? .unsat ++ between := by
          rw [hbefore, Round.answered, List.append_assoc, List.singleton_append]
        rw [hsplit, solveCount_append, Round.solveCount_answered, ← Nat.add_assoc]
        exact ih hlater

theorem solveCount_le (h : backend.Protocol config problem step solver exchanges last)
    (hle : step ≤ config.maxSteps) : step + solveCount exchanges ≤ config.maxSteps + 1 := by
  induction h with
  | givenUp _ => simpa [solveCount] using Nat.le_succ_of_le hle
  | @failed _ _ _ _ _ _ call error _ hcalls _ =>
      rw [solveCount_append, solveCount_taken (Round.isSolve_of_mem_before hcalls)]
      have hone : solveCount [⟨call, .error error⟩] ≤ 1 := List.countP_le_length
      omega
  | answered _ _ _ =>
      rw [Round.solveCount_answered]
      omega
  | next _ _ hlt _ ih =>
      have hlater := ih hlt
      rw [solveCount_append, Round.solveCount_answered]
      omega

/-- No call follows: the last one failed, or it was answered and no horizon is tried after the
answer, or the next step is given up. -/
theorem ends (h : backend.Protocol config problem step solver exchanges last) :
    (∃ before call error, exchanges = before ++ [⟨call, .error error⟩]) ∨
    (∃ before call result, exchanges = before ++ [⟨call, .ok (some result)⟩] ∧
      (result = .unsat → step + solveCount before = config.maxSteps)) ∨
    ((exchanges = [] ∨ ∃ before call, exchanges = before ++ [⟨call, .ok (some .unsat)⟩]) ∧
      backend.GivesUp problem config.semantics (step + solveCount exchanges) last) := by
  induction h with
  | givenUp hgivesUp => exact Or.inr (Or.inr ⟨Or.inl rfl, hgivesUp⟩)
  | failed _ _ _ => exact Or.inl ⟨_, _, _, rfl⟩
  | answered _ _ hlast =>
      refine Or.inr (Or.inl ⟨_, _, _, rfl, fun hunsat => ?_⟩)
      rw [solveCount_taken isSolve_of_mem_submissionCalls, hlast hunsat, Nat.add_zero]
  | @next step _ _ _ round later _ _ _ _ ih =>
      have hcount : ∀ others,
          step + solveCount (round.answered config.timeoutMs? .unsat ++ others) =
            step + 1 + solveCount others := by
        intro others
        rw [solveCount_append, Round.solveCount_answered, Nat.add_assoc]
      rcases ih with ⟨before, call, error, rfl⟩ | ⟨before, call, result, rfl, hlast⟩ |
        ⟨hlater, hgivesUp⟩
      · exact Or.inl ⟨_, call, error, (List.append_assoc _ _ _).symm⟩
      · refine Or.inr (Or.inl ⟨_, call, result, (List.append_assoc _ _ _).symm, fun hunsat => ?_⟩)
        rw [hcount, hlast hunsat]
      · refine Or.inr (Or.inr ⟨Or.inr ?_, by rwa [hcount]⟩)
        rcases hlater with rfl | ⟨before, call, rfl⟩
        · exact ⟨_, _, List.append_nil _⟩
        · exact ⟨_, call, (List.append_assoc _ _ _).symm⟩

theorem withinCeiling (h : backend.Protocol config problem step solver exchanges last)
    (hle : step ≤ config.maxSteps) (announced : Nat) :
    WithinCeiling announced (exchanges.map Exchange.call) := by
  obtain ⟨rounds, hrounds, -, hbegins⟩ := h.exists_rounds hle
  have hall : ∀ round ∈ rounds, ∀ announced,
      WithinCeiling announced (round.calls config.timeoutMs?) := by
    intro round hround
    obtain ⟨step, -, hencoded⟩ := (mem_of_mapM_eq_ok hrounds).mp hround
    exact withinCeiling_calls hencoded config.timeoutMs?
  clear hrounds
  refine WithinCeiling.beginning ?_ hbegins
  clear hbegins
  induction rounds generalizing announced with
  | nil => trivial
  | cons round rest ih =>
      rw [List.forall_mem_cons] at hall
      exact (hall.1 announced).append fun announced => ih announced hall.2

end Backend.Protocol

section Planner

variable {σ : Type}

/-- Whatever the solver replies, the calls that it receives are a beginning of those of the rounds
of the steps 0, 1, 2 and so on.  Nothing is called after a failure or after the last answer, and the
next step follows unless it is given up. -/
theorem calls_in_rounds (backend : Backend σ) (config : PlannerConfig) (problem : Problem)
    (solver : σ) :
    ∃ answer last exchanges rounds,
      planWith (Scripted.backend backend) config problem ⟨solver, [], #[]⟩ = (answer, last) ∧
      planWith backend config problem solver = (answer, last.solver) ∧
      last.log.toList = exchanges.map Exchange.call ∧
      backend.Replies solver exchanges last.solver ∧
      (problem.goalPossiblyReachable = false → exchanges = []) ∧
      (List.range rounds.length).mapM (encodedRound problem config.semantics) = .ok rounds ∧
      exchanges.map Exchange.call <+: rounds.flatMap (Round.calls config.timeoutMs?) ∧
      (∀ before exchange after, exchanges = before ++ exchange :: after →
        (∀ error, exchange.reply = .error error → after = []) ∧
        (exchange.call.isSolve = true → after ≠ [] →
          exchange.reply = .ok (some .unsat) ∧ solveCount before < config.maxSteps) ∧
        (∀ lits, exchange.call = .addClause lits → 0 < solveCount before → 2 ≤ lits.length)) ∧
      (problem.goalPossiblyReachable = true →
        (∃ before call error, exchanges = before ++ [⟨call, .error error⟩]) ∨
        (∃ before call result, exchanges = before ++ [⟨call, .ok (some result)⟩] ∧
          (result = .unsat → solveCount before = config.maxSteps)) ∨
        ((exchanges = [] ∨ ∃ before call, exchanges = before ++ [⟨call, .ok (some .unsat)⟩]) ∧
          backend.GivesUp problem config.semantics (solveCount exchanges) last.solver)) ∧
      solveCount exchanges ≤ config.maxSteps + 1 ∧
      WithinCeiling 0 (exchanges.map Exchange.call) := by
  have hmirror : Scripted.Mirrors (planWith (Scripted.backend backend) config problem)
      (planWith backend config problem) := Scripted.mirrors_planWith config problem
  obtain ⟨log, hmirror⟩ := hmirror solver #[]
  cases hpossible : problem.goalPossiblyReachable with
  | false =>
      refine ⟨_, _, [], [], planWith_eq_unreachable hpossible, planWith_eq_unreachable hpossible,
        rfl, .nil solver, fun _ => rfl, rfl, List.nil_prefix, ?_, nofun, Nat.zero_le _, trivial⟩
      intro before exchange after hsplit
      simp at hsplit
  | true =>
      obtain ⟨exchanges, final, hfinal, hprotocol⟩ :=
        exists_protocol_planWith backend config hpossible solver
      have hobserved : (planWith (Scripted.backend backend) config problem ⟨solver, [], #[]⟩).2 =
          .received final (exchanges.map Exchange.call) := hfinal
      have hsolver : (planWith backend config problem solver).2 = final := by
        rw [hmirror] at hobserved
        exact congrArg Scripted.solver hobserved
      have hanswer := congrArg Prod.fst hmirror
      obtain ⟨rounds, hrounds, -, hbegins⟩ := hprotocol.exists_rounds (Nat.zero_le _)
      rw [← List.range_eq_range'] at hrounds
      have hends := hprotocol.ends
      have hcount := hprotocol.solveCount_le (Nat.zero_le _)
      simp only [Nat.zero_add] at hends hcount
      refine ⟨(planWith backend config problem solver).1,
        .received final (exchanges.map Exchange.call), exchanges, rounds,
        Prod.ext hanswer hobserved, Prod.ext rfl hsolver, rfl, hprotocol.replies, nofun, hrounds,
        hbegins, ?_, fun _ => hends, hcount,
        hprotocol.withinCeiling (Nat.zero_le _) 0⟩
      intro before exchange after hsplit
      obtain ⟨round, hround, hcall, hfollows⟩ := hprotocol.of_split hsplit
      rw [Nat.zero_add] at hround hfollows
      refine ⟨fun error herror => ?_, fun hsolve hafter => ?_, fun lits hadd hlater => ?_⟩
      · by_contra hafter
        rcases hfollows hafter with ⟨htaken, -⟩ | ⟨hunsat, -⟩
        · rw [htaken] at herror
          cases herror
        · rw [herror] at hunsat
          cases hunsat
      · refine (hfollows hafter).resolve_left fun htaken => ?_
        rw [hsolve] at htaken
        cases htaken.2
      · obtain ⟨earlier, hearlier⟩ := Nat.exists_eq_succ_of_ne_zero (Nat.pos_iff_ne_zero.mp hlater)
        rw [hearlier] at hround
        exact two_le_length_of_encodedRound hround (hadd ▸ hcall)

def broken : Backend Unit where
  name _ := "broken"
  limits _ := {}
  reserve _ := throw (.backendFailure "broken")
  addClause _ := pure ()
  solve _ _ := pure .unsat
  numVars _ := 0
  numClauses _ := 0

theorem calls_in_rounds_broken :
    ∃ answer last maxVar,
      planWith (Scripted.backend broken) { semantics := .parallel } lamps ⟨(), [], #[]⟩ =
        (answer, last) ∧
      last.log.toList = [.reserve maxVar] := by
  let config : PlannerConfig := { semantics := .parallel }
  obtain ⟨answer, last, exchanges, rounds, hrun, -, hlog, hreplies, -, -, hbegins, hsplit, hends,
    -⟩ := calls_in_rounds broken config lamps ()
  have hpossible : lamps.goalPossiblyReachable = true := by
    decide +kernel
  cases hreplies with
  | nil _ =>
      -- Step 0 fits and can be encoded, so there is a call.
      rcases hends hpossible with ⟨before, _, _, h⟩ | ⟨before, _, _, h, -⟩ | ⟨-, hgivesUp⟩
      · simp at h
      · simp at h
      · obtain ⟨encoder, error, ⟨⟩, hcapacity | hencode⟩ := hgivesUp
        · cases hcapacity
        · obtain ⟨clauses, encoder, hencoded⟩ :=
            Encoder.exists_encodeThrough_eq_ok
              (show lamps.variablesThrough .parallel 0 ≤ variableRoom by decide)
          cases hencode.symm.trans hencoded
  | @cons _ _ _ call _ rest hreply _ =>
      cases rounds with
      | nil => simp at hbegins
      | cons round others =>
          obtain ⟨hcall, -⟩ := List.cons_prefix_cons.mp hbegins
          have hcall : call = .reserve round.maxVar := hcall
          subst hcall
          cases hreply
          obtain rfl := (hsplit [] _ rest rfl).1 _ rfl
          exact ⟨answer, last, round.maxVar, hrun, hlog⟩

end Planner

end BoundedPlanning
