import BoundedPlanning.Proofs.Loading

namespace BoundedPlanning

inductive BuilderCall
  | fact (name : String)
  | lookup (name : String)
  | action (action : Action)
  | initTrue (fact : Nat)
  | goalTrue (fact : Nat)
  | goalFalse (fact : Nat)
  deriving DecidableEq

namespace BuilderCall

@[simp]
def action? : BuilderCall → Option Action
  | .action given => some given
  | _ => none

@[simp]
def initTrue? : BuilderCall → Option Nat
  | .initTrue id => some id
  | _ => none

@[simp]
def goalTrue? : BuilderCall → Option Nat
  | .goalTrue id => some id
  | _ => none

@[simp]
def goalFalse? : BuilderCall → Option Nat
  | .goalFalse id => some id
  | _ => none

theorem mem_filterMap_initTrue? {calls : List BuilderCall} {fact : Nat} :
    fact ∈ calls.filterMap initTrue? ↔ .initTrue fact ∈ calls := by
  rw [List.mem_filterMap]
  constructor
  · rintro ⟨call, hcall, hfact⟩
    cases call <;> cases hfact
    exact hcall
  · intro h
    exact ⟨.initTrue fact, h, rfl⟩

end BuilderCall

inductive BuilderReply
  | factId (id : Nat)
  | place (id : Option Nat)
  | actionId (id : Nat)
  | done

structure BuilderExchange where
  call : BuilderCall
  result : Except ProblemError BuilderReply

namespace BuilderExchange

def acceptedName? : BuilderExchange → Option String
  | ⟨.fact name, .ok _⟩ => some name
  | _ => none

def factId? : BuilderExchange → Option Nat
  | ⟨_, .ok (.factId id)⟩ => some id
  | _ => none

def actionId? : BuilderExchange → Option Nat
  | ⟨_, .ok (.actionId id)⟩ => some id
  | _ => none

end BuilderExchange

def acceptedNames (exchanges : List BuilderExchange) : List String :=
  exchanges.filterMap BuilderExchange.acceptedName?

def declaredActions (exchanges : List BuilderExchange) : List Action :=
  exchanges.filterMap fun exchange => exchange.call.action?

/-- What a call has to come to after what was said before it. -/
inductive Answers (earlier : List BuilderExchange) :
    BuilderCall → Except ProblemError BuilderReply → Prop
  | accepted {name : String} (hnew : name ∉ acceptedNames earlier) :
      Answers earlier (.fact name) (.ok (.factId (acceptedNames earlier).length))
  | repeated {name : String} (hold : name ∈ acceptedNames earlier) :
      Answers earlier (.fact name) (.error (.duplicateFact name))
  | found {name : String} {id : Nat} (hname : (acceptedNames earlier)[id]? = some name) :
      Answers earlier (.lookup name) (.ok (.place (some id)))
  | missing {name : String} (hname : name ∉ acceptedNames earlier) :
      Answers earlier (.lookup name) (.ok (.place none))
  | action (action : Action) :
      Answers earlier (.action action) (.ok (.actionId (declaredActions earlier).length))
  | initTrue (fact : Nat) : Answers earlier (.initTrue fact) (.ok .done)
  | goalTrue (fact : Nat) : Answers earlier (.goalTrue fact) (.ok .done)
  | goalFalse (fact : Nat) : Answers earlier (.goalFalse fact) (.ok .done)

/-- Every call has come to what it has to after what was said before it. -/
inductive Transcript : List BuilderExchange → Prop
  | nil : Transcript []
  | concat {earlier : List BuilderExchange} {call : BuilderCall}
      {result : Except ProblemError BuilderReply} (hearlier : Transcript earlier)
      (hanswers : Answers earlier call result) : Transcript (earlier ++ [⟨call, result⟩])

section Transcripts

variable {exchanges earlier : List BuilderExchange} {call : BuilderCall}
  {result : Except ProblemError BuilderReply}

theorem filterMap_concat {α β : Type} {f : α → Option β} {items : List α} {last : α} :
    (items ++ [last]).filterMap f = items.filterMap f ++ (f last).toList := by
  cases hlast : f last <;> simp [hlast]

theorem acceptedNames_concat {exchange : BuilderExchange} :
    acceptedNames (exchanges ++ [exchange]) =
      acceptedNames exchanges ++ exchange.acceptedName?.toList :=
  filterMap_concat

theorem Answers.factId?_eq (h : Answers earlier call result) :
    BuilderExchange.factId? ⟨call, result⟩ =
      (BuilderExchange.acceptedName? ⟨call, result⟩).map fun _ =>
        (acceptedNames earlier).length := by
  cases h <;> rfl

theorem Answers.actionId?_eq (h : Answers earlier call result) :
    BuilderExchange.actionId? ⟨call, result⟩ =
      call.action?.map fun _ => (declaredActions earlier).length := by
  cases h <;> rfl

theorem Answers.not_mem_acceptedNames (h : Answers earlier call result) {name : String}
    (hname : BuilderExchange.acceptedName? ⟨call, result⟩ = some name) :
    name ∉ acceptedNames earlier := by
  cases h <;> cases hname
  assumption

namespace Transcript

theorem nodup_acceptedNames (h : Transcript exchanges) : (acceptedNames exchanges).Nodup := by
  induction h with
  | nil => exact List.nodup_nil
  | @concat earlier call result _ hanswers ih =>
      rw [acceptedNames_concat]
      cases hname : BuilderExchange.acceptedName? ⟨call, result⟩ with
      | none => rwa [Option.toList_none, List.append_nil]
      | some name =>
          rw [Option.toList_some, ← List.concat_eq_append]
          exact ih.concat (hanswers.not_mem_acceptedNames hname)

/-- Numbers that are handed out whenever something is counted are 0, 1, 2, … in this order. -/
theorem ids_concat {α : Type} {earlier : List BuilderExchange} {exchange : BuilderExchange}
    {id? : BuilderExchange → Option Nat} {counted? : BuilderExchange → Option α}
    (hids : earlier.filterMap id? = List.range (earlier.filterMap counted?).length)
    (hlast : id? exchange = (counted? exchange).map fun _ => (earlier.filterMap counted?).length) :
    (earlier ++ [exchange]).filterMap id? =
      List.range ((earlier ++ [exchange]).filterMap counted?).length := by
  rw [filterMap_concat, filterMap_concat, hids, hlast]
  cases counted? exchange with
  | none => simp
  | some _ => simp [List.range_succ]

theorem factIds_eq (h : Transcript exchanges) :
    exchanges.filterMap BuilderExchange.factId? = List.range (acceptedNames exchanges).length := by
  induction h with
  | nil => rfl
  | concat _ hanswers ih => exact ids_concat ih hanswers.factId?_eq

theorem actionIds_eq (h : Transcript exchanges) :
    exchanges.filterMap BuilderExchange.actionId? =
      List.range (declaredActions exchanges).length := by
  induction h with
  | nil => rfl
  | concat _ hanswers ih => exact ids_concat ih hanswers.actionId?_eq

end Transcript

end Transcripts

/-- Computations that change a builder and may fail; a failure keeps the changes made before it. -/
abbrev BuilderM := ExceptT ProblemError (StateM ProblemBuilder)

namespace BuilderM

def addFact (name : String) : BuilderM Nat := do
  let builder ← get
  if builder.byName.contains name then throw (.duplicateFact name)
  let id := builder.facts.size
  modify fun builder => { builder with byName := builder.byName.insert name id }
  modify fun builder => { builder with facts := builder.facts.push name }
  return id

def addAction (action : Action) : BuilderM Nat := do
  let builder ← get
  let (id, next) := builder.addAction action
  set next
  return id

theorem addFact_of_ok {builder next : ProblemBuilder} {name : String} {id : Nat}
    (h : builder.addFact name = .ok (id, next)) : addFact name builder = (.ok id, next) := by
  rw [ProblemBuilder.addFact] at h
  split at h
  · cases h
  · rename_i hnew
    cases h
    rw [addFact, exceptT_get_bind, if_neg hnew]
    rfl

theorem addFact_of_error {builder : ProblemBuilder} {name : String} {error : ProblemError}
    (h : builder.addFact name = .error error) : addFact name builder = (.error error, builder) := by
  rw [ProblemBuilder.addFact] at h
  split at h
  · rename_i hold
    cases h
    rw [addFact, exceptT_get_bind, if_pos hold]
    rfl
  · cases h

end BuilderM

namespace ProblemBuilder

def perform : BuilderCall → BuilderM BuilderReply
  | .fact name => do return .factId (← BuilderM.addFact name)
  | .lookup name => do return .place ((← get).lookup name)
  | .action action => do return .actionId (← BuilderM.addAction action)
  | .initTrue fact => do
    modify fun builder => builder.addInit fact
    return .done
  | .goalTrue fact => do
    modify fun builder => builder.addGoalTrue fact
    return .done
  | .goalFalse fact => do
    modify fun builder => builder.addGoalFalse fact
    return .done

def respond (builder : ProblemBuilder) (call : BuilderCall) :
    Except ProblemError BuilderReply × ProblemBuilder :=
  (perform call).run builder

def respondAll (builder : ProblemBuilder) :
    List BuilderCall → List BuilderExchange × ProblemBuilder
  | [] => ([], builder)
  | call :: rest =>
    let (result, next) := builder.respond call
    let (later, last) := next.respondAll rest
    (⟨call, result⟩ :: later, last)

section Calls

variable {builder next : ProblemBuilder} {name : String} {fact : Nat}

theorem respond_fact :
    builder.respond (.fact name) = match builder.addFact name with
      | .ok (id, next) => (.ok (.factId id), next)
      | .error error => (.error error, builder) := by
  cases hadd : builder.addFact name with
  | error error => exact exceptT_bind_of_error (BuilderM.addFact_of_error hadd)
  | ok added => exact exceptT_bind_of_ok (BuilderM.addFact_of_ok hadd)

@[simp]
theorem respond_lookup :
    builder.respond (.lookup name) = (.ok (.place (builder.lookup name)), builder) := rfl

@[simp]
theorem respond_action {action : Action} :
    builder.respond (.action action) =
      (.ok (.actionId builder.actions.size), (builder.addAction action).2) := rfl

@[simp]
theorem respond_initTrue : builder.respond (.initTrue fact) = (.ok .done, builder.addInit fact) :=
  rfl

@[simp]
theorem respond_goalTrue :
    builder.respond (.goalTrue fact) = (.ok .done, builder.addGoalTrue fact) := rfl

@[simp]
theorem respond_goalFalse :
    builder.respond (.goalFalse fact) = (.ok .done, builder.addGoalFalse fact) := rfl

/-- A call that fails changes nothing. -/
theorem eq_of_respond_eq_error {call : BuilderCall} {error : ProblemError}
    (h : builder.respond call = (.error error, next)) : next = builder := by
  cases call with
  | fact name =>
      cases hadd : builder.addFact name with
      | error error =>
          rw [respond_fact, hadd] at h
          cases h
          rfl
      | ok added =>
          rw [respond_fact, hadd] at h
          cases h
  | lookup name => cases h
  | action action => cases h
  | initTrue fact => cases h
  | goalTrue fact => cases h
  | goalFalse fact => cases h

/-- A call adds what it hands over to its part and leaves the other parts alone. -/
theorem parts_respond (builder : ProblemBuilder) (call : BuilderCall) :
    (builder.respond call).2.actions.toList = builder.actions.toList ++ call.action?.toList ∧
    (builder.respond call).2.initTrue.toList = builder.initTrue.toList ++ call.initTrue?.toList ∧
    (builder.respond call).2.goalTrue.toList = builder.goalTrue.toList ++ call.goalTrue?.toList ∧
    (builder.respond call).2.goalFalse.toList =
      builder.goalFalse.toList ++ call.goalFalse?.toList := by
  cases call with
  | fact name =>
      cases hadd : builder.addFact name with
      | error error => simp [respond_fact, hadd]
      | ok added =>
          obtain ⟨hactions, hinit, hpos, hneg⟩ := parts_of_addFact hadd
          simp [respond_fact, hadd, hactions, hinit, hpos, hneg]
  | lookup name => simp
  | action action => simp [addAction]
  | initTrue fact => simp [addInit]
  | goalTrue fact => simp [addGoalTrue]
  | goalFalse fact => simp [addGoalFalse]

end Calls

/-- The builder holds what the exchanges handed over, and the table has the place of each name. -/
structure Records (builder : ProblemBuilder) (exchanges : List BuilderExchange) : Prop where
  numbers : builder.Numbers (acceptedNames exchanges)
  actions_eq : builder.actions.toList = declaredActions exchanges
  initTrue_eq : builder.initTrue.toList =
    exchanges.filterMap fun exchange => exchange.call.initTrue?
  goalTrue_eq : builder.goalTrue.toList =
    exchanges.filterMap fun exchange => exchange.call.goalTrue?
  goalFalse_eq : builder.goalFalse.toList =
    exchanges.filterMap fun exchange => exchange.call.goalFalse?

namespace Records

variable {builder next : ProblemBuilder} {exchanges : List BuilderExchange} {call : BuilderCall}
  {result : Except ProblemError BuilderReply}

theorem empty : ProblemBuilder.empty.Records [] :=
  ⟨numbers_empty, rfl, rfl, rfl, rfl⟩

theorem size_actions (h : builder.Records exchanges) :
    builder.actions.size = (declaredActions exchanges).length := by
  rw [← h.actions_eq, Array.length_toList]

theorem answers (h : builder.Records exchanges) (call : BuilderCall) :
    Answers exchanges call (builder.respond call).1 := by
  cases call with
  | fact name =>
      by_cases hold : name ∈ acceptedNames exchanges
      · rw [respond_fact, h.numbers.addFact_of_mem hold]
        exact .repeated hold
      · obtain ⟨next, hadd⟩ := h.numbers.exists_addFact hold
        rw [respond_fact, hadd]
        exact .accepted hold
  | lookup name =>
      rw [respond_lookup]
      cases hname : builder.lookup name with
      | some id => exact .found ((h.numbers.lookup_iff name id).mp hname)
      | none => exact .missing (h.numbers.lookup_eq_none_iff.mp hname)
  | action action =>
      rw [respond_action, h.size_actions]
      exact .action action
  | initTrue fact => exact .initTrue fact
  | goalTrue fact => exact .goalTrue fact
  | goalFalse fact => exact .goalFalse fact

theorem respond_eq_error_iff (h : builder.Records exchanges) {error : ProblemError} :
    builder.respond call = (.error error, next) ↔
      next = builder ∧ ∃ name ∈ acceptedNames exchanges,
        call = .fact name ∧ error = .duplicateFact name := by
  constructor
  · intro hrespond
    have hanswers := h.answers call
    rw [hrespond] at hanswers
    refine ⟨eq_of_respond_eq_error hrespond, ?_⟩
    cases hanswers with
    | repeated hold => exact ⟨_, hold, rfl, rfl⟩
  · rintro ⟨rfl, name, hold, rfl, rfl⟩
    rw [respond_fact, h.numbers.addFact_of_mem hold]

theorem numbers_respond (h : builder.Records exchanges) (call : BuilderCall) :
    (builder.respond call).2.Numbers
      (acceptedNames (exchanges ++ [⟨call, (builder.respond call).1⟩])) := by
  rw [acceptedNames_concat]
  cases call with
  | fact name =>
      by_cases hold : name ∈ acceptedNames exchanges
      · rw [respond_fact, h.numbers.addFact_of_mem hold]
        simpa [BuilderExchange.acceptedName?] using h.numbers
      · obtain ⟨next, hadd⟩ := h.numbers.exists_addFact hold
        rw [respond_fact, hadd]
        exact h.numbers.addFact hadd
  | _ =>
      -- no other call touches the names or the table
      rw [show BuilderExchange.acceptedName? ⟨_, _⟩ = none from rfl, Option.toList_none,
        List.append_nil]
      exact ⟨h.numbers.facts_eq, h.numbers.nodup, h.numbers.lookup_iff⟩

theorem respond (h : builder.Records exchanges) (call : BuilderCall) :
    (builder.respond call).2.Records (exchanges ++ [⟨call, (builder.respond call).1⟩]) := by
  obtain ⟨hactions, hinit, hpos, hneg⟩ := builder.parts_respond call
  constructor
  · exact h.numbers_respond call
  · rw [hactions, h.actions_eq, declaredActions, declaredActions, filterMap_concat]
  · rw [hinit, h.initTrue_eq, filterMap_concat]
  · rw [hpos, h.goalTrue_eq, filterMap_concat]
  · rw [hneg, h.goalFalse_eq, filterMap_concat]

end Records

section Runs

variable {builder final : ProblemBuilder} {calls : List BuilderCall}
  {earlier exchanges : List BuilderExchange}

theorem map_call_respondAll (hrun : builder.respondAll calls = (exchanges, final)) :
    exchanges.map BuilderExchange.call = calls := by
  induction calls generalizing builder exchanges with
  | nil =>
      cases hrun
      rfl
  | cons call rest ih =>
      rw [respondAll] at hrun
      cases hrun
      rw [List.map_cons, ih rfl]

/-- What is recorded before some calls and what they have come to are recorded after them. -/
theorem Records.respondAll (h : builder.Records earlier) (hearlier : Transcript earlier)
    (hrun : builder.respondAll calls = (exchanges, final)) :
    final.Records (earlier ++ exchanges) ∧ Transcript (earlier ++ exchanges) := by
  induction calls generalizing builder earlier exchanges with
  | nil =>
      cases hrun
      rw [List.append_nil]
      exact ⟨h, hearlier⟩
  | cons call rest ih =>
      rw [ProblemBuilder.respondAll] at hrun
      cases hrun
      rw [List.append_cons]
      exact ih (h.respond call) (hearlier.concat (h.answers call)) rfl

end Runs

end ProblemBuilder

section Runs

variable {calls : List BuilderCall} {exchanges : List BuilderExchange} {final : ProblemBuilder}

/-- However calls are mixed, the names that were accepted are distinct, their numbers are 0, 1, 2, …
in the order of their acceptance, the table has just these, and so are the actions numbered.  A call
fails only if it declares a name again, and changes nothing then.  In the end the first initial fact
that was never declared is reported; if there is none, the problem is that of the parts that were
handed over, in which the initial facts hold. -/
theorem builder_run_consistent (hrun : ProblemBuilder.empty.respondAll calls = (exchanges, final)) :
    exchanges.map BuilderExchange.call = calls ∧ Transcript exchanges ∧
    (acceptedNames exchanges).Nodup ∧
    exchanges.filterMap BuilderExchange.factId? = List.range (acceptedNames exchanges).length ∧
    exchanges.filterMap BuilderExchange.actionId? =
      List.range (calls.filterMap BuilderCall.action?).length ∧
    (∀ name id, final.lookup name = some id ↔ (acceptedNames exchanges)[id]? = some name) ∧
    (∀ call error next, final.respond call = (.error error, next) ↔
      next = final ∧ ∃ name ∈ acceptedNames exchanges,
        call = .fact name ∧ error = .duplicateFact name) ∧
    ((∃ fact count, final.build = .error (.stateOutOfRange .initialState fact count)) ↔
      ∃ fact, .initTrue fact ∈ calls ∧ (acceptedNames exchanges).length ≤ fact) ∧
    (∀ fact count, final.build = .error (.stateOutOfRange .initialState fact count) ↔
      count = (acceptedNames exchanges).length ∧ count ≤ fact ∧ ∃ before after,
        calls.filterMap BuilderCall.initTrue? = before ++ fact :: after ∧
          ∀ other ∈ before, other < count) ∧
    ((∀ fact, .initTrue fact ∈ calls → fact < (acceptedNames exchanges).length) →
      ∃ init : State, init.size = (acceptedNames exchanges).length ∧
        (∀ fact, init.holds fact = true ↔ .initTrue fact ∈ calls) ∧
        final.build = Problem.ofParts (acceptedNames exchanges)
          (calls.filterMap BuilderCall.action?) init
          ⟨calls.filterMap BuilderCall.goalTrue?, calls.filterMap BuilderCall.goalFalse?⟩) := by
  have hcalls := ProblemBuilder.map_call_respondAll hrun
  obtain ⟨hrecords, htranscript⟩ := ProblemBuilder.Records.empty.respondAll .nil hrun
  rw [List.nil_append] at hrecords htranscript
  have hparts {α : Type} (part? : BuilderCall → Option α) :
      (exchanges.filterMap fun exchange => part? exchange.call) = calls.filterMap part? := by
    rw [← hcalls, List.filterMap_map]
    rfl
  have hactions : declaredActions exchanges = calls.filterMap BuilderCall.action? := hparts _
  have hinit : final.initTrue.toList = calls.filterMap BuilderCall.initTrue? :=
    hrecords.initTrue_eq.trans (hparts _)
  refine ⟨hcalls, htranscript, htranscript.nodup_acceptedNames, htranscript.factIds_eq, ?_,
    hrecords.numbers.lookup_iff, fun call error next => hrecords.respond_eq_error_iff, ?_,
    fun fact count => ?_, fun hdeclared => ?_⟩
  · rw [← hactions]
    exact htranscript.actionIds_eq
  · rw [ProblemBuilder.exists_build_eq_undeclaredInit_iff, hinit, hrecords.numbers.size_facts]
    simp only [BuilderCall.mem_filterMap_initTrue?]
  · rw [ProblemBuilder.build_eq_undeclaredInit_iff, hinit, hrecords.numbers.size_facts]
  · have hlt : ∀ fact ∈ final.initTrue.toList, fact < final.facts.size := by
      rw [hinit, hrecords.numbers.size_facts]
      simpa only [BuilderCall.mem_filterMap_initTrue?] using hdeclared
    refine ⟨.ofTrueFacts final.facts.size final.initTrue.toList, ?_, fun fact => ?_, ?_⟩
    · rw [State.size_ofTrueFacts, hrecords.numbers.size_facts]
    · rw [State.holds_ofTrueFacts, decide_eq_true_iff, and_iff_left_of_imp (hlt fact), hinit,
        BuilderCall.mem_filterMap_initTrue?]
    · rw [ProblemBuilder.build_of_declared hlt, hrecords.numbers.facts_eq, hrecords.actions_eq,
        hrecords.goalTrue_eq, hrecords.goalFalse_eq, hactions, hparts, hparts]

def lateDeclarations : List BuilderCall :=
  [.initTrue 1, .fact "p", .initTrue 1, .fact "p", .goalTrue 0, .lookup "q", .fact "q",
    .action ⟨"a", [1], [], [0], []⟩]

theorem builder_run_consistent_lateDeclarations :
    ∃ exchanges final, ProblemBuilder.empty.respondAll lateDeclarations = (exchanges, final) ∧
      acceptedNames exchanges = ["p", "q"] ∧
      exchanges.filterMap BuilderExchange.factId? = [0, 1] ∧
      final.lookup "q" = some 1 ∧
      final.respond (.fact "q") = (.error (.duplicateFact "q"), final) ∧
      ∃ init : State, (∀ fact, init.holds fact = true ↔ fact = 1) ∧
        final.build = Problem.ofParts ["p", "q"] [⟨"a", [1], [], [0], []⟩] init ⟨[0], []⟩ := by
  obtain ⟨exchanges, final, hrun, hnames⟩ : ∃ exchanges final,
      ProblemBuilder.empty.respondAll lateDeclarations = (exchanges, final) ∧
        acceptedNames exchanges = ["p", "q"] := by
    refine ⟨(ProblemBuilder.empty.respondAll lateDeclarations).1, _, rfl, ?_⟩
    simp [ProblemBuilder.respondAll, lateDeclarations, ProblemBuilder.respond_fact,
      ProblemBuilder.addFact, ProblemBuilder.empty, ProblemBuilder.addInit,
      ProblemBuilder.addGoalTrue, acceptedNames, List.filterMap_cons,
      BuilderExchange.acceptedName?]
  obtain ⟨-, -, -, hids, -, hlookup, hfailed, -, -, hbuild⟩ := builder_run_consistent hrun
  rw [hnames] at hids hlookup hfailed hbuild
  obtain ⟨init, -, hinit, hbuild⟩ := hbuild (by simp [lateDeclarations])
  refine ⟨exchanges, final, hrun, hnames, hids, (hlookup "q" 1).mpr rfl, ?_, init, fun fact => ?_,
    hbuild⟩
  · exact (hfailed _ _ _).mpr ⟨rfl, "q", by decide, rfl, rfl⟩
  · rw [hinit]
    simp [lateDeclarations]

end Runs

end BoundedPlanning
