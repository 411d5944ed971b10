import BoundedPlanning.Proofs.RecordForms
import BoundedPlanning.Serialized.Planner

namespace BoundedPlanning

open JsonValue

namespace CodecLaws

theorem nat32 : CodecLaws .natural nat32? (· < bound32) := natBelow bound32

theorem nat64 : CodecLaws .natural nat64? (· < bound64) := natBelow bound64

theorem numbers : CodecLaws numbersJson numbersOfJson? (fun ns => ∀ n ∈ ns, n < bound32) :=
  nat32.list

theorem semantics : CodecLaws StepSemantics.toJson StepSemantics.ofJson? (fun _ => True) where
  plain semantics _ := .string semantics.text
  read_write semantics _ := by cases semantics <;> rfl
  inRange _ _ _ := trivial

theorem status : CodecLaws HorizonStatus.toJson HorizonStatus.ofJson? (fun _ => True) where
  plain status _ := .string status.text
  read_write status _ := by cases status <;> rfl
  inRange _ _ _ := trivial

theorem backend : CodecLaws BackendKind.toJson BackendKind.ofJson? (fun _ => True) where
  plain kind _ := .string kind.text
  read_write kind _ := by cases kind <;> rfl
  inRange _ _ _ := trivial

end CodecLaws

variable {value form : JsonValue}

namespace Action

structure InRange (action : Action) : Prop where
  pre : ∀ fact ∈ action.pre, fact < bound32
  preNeg : ∀ fact ∈ action.preNeg, fact < bound32
  add : ∀ fact ∈ action.add, fact < bound32
  del : ∀ fact ∈ action.del, fact < bound32

def defaults : List (String × JsonValue) := [("pre_neg", .array [])]

variable {action : Action}

theorem plain_toJson (h : action.InRange) : action.toJson.Plain := by
  apply plain_record
  simp only [List.forall_mem_cons]
  exact ⟨CodecLaws.text.plain _ trivial, CodecLaws.numbers.plain _ h.pre,
    CodecLaws.numbers.plain _ h.preNeg, CodecLaws.numbers.plain _ h.add,
    CodecLaws.numbers.plain _ h.del, by simp⟩

theorem ofJson?_of_formOf (h : action.InRange) (hform : FormOf defaults action.toJson form) :
    ofJson? form = some action := by
  obtain ⟨given, hgiven, hgives⟩ := JsonFields.exists_of_formOf hform (by simp)
  have hname := CodecLaws.text.required_eq trivial (hgives 0 _ rfl) (by decide)
  have hpre := CodecLaws.numbers.required_eq h.pre (hgives 1 _ rfl) (by decide)
  have hpreNeg := CodecLaws.numbers.withDefault_eq [] h.preNeg (hgives 2 _ rfl)
    (by simp [defaults]; rfl)
  have hadd := CodecLaws.numbers.required_eq h.add (hgives 3 _ rfl) (by decide)
  have hdel := CodecLaws.numbers.required_eq h.del (hgives 4 _ rfl) (by decide)
  simp only [List.map_cons, List.map_nil] at hgiven
  simp only [ofJson?, hgiven, hname, hpre, hpreNeg, hadd, hdel, Option.bind_eq_bind,
    Option.bind_some]
  rfl

theorem inRange_of_ofJson? (h : ofJson? value = some action) : action.InRange := by
  simp only [ofJson?, Option.bind_eq_bind, Option.bind_eq_some_iff] at h
  obtain ⟨given, -, name, -, pre, hpre, preNeg, hpreNeg, add, hadd, del, hdel, h⟩ := h
  cases h
  exact ⟨CodecLaws.numbers.inRange_required hpre,
    CodecLaws.numbers.inRange_withDefault hpreNeg (by simp),
    CodecLaws.numbers.inRange_required hadd, CodecLaws.numbers.inRange_required hdel⟩

end Action

namespace Goal

structure InRange (goal : Goal) : Prop where
  pos : ∀ fact ∈ goal.pos, fact < bound32
  neg : ∀ fact ∈ goal.neg, fact < bound32

def defaults : List (String × JsonValue) := [("neg", .array [])]

variable {goal : Goal}

theorem plain_toJson (h : goal.InRange) : goal.toJson.Plain := by
  apply plain_record
  simp only [List.forall_mem_cons]
  exact ⟨CodecLaws.numbers.plain _ h.pos, CodecLaws.numbers.plain _ h.neg, by simp⟩

theorem ofJson?_of_formOf (h : goal.InRange) (hform : FormOf defaults goal.toJson form) :
    ofJson? form = some goal := by
  obtain ⟨given, hgiven, hgives⟩ := JsonFields.exists_of_formOf hform (by simp)
  have hpos := CodecLaws.numbers.required_eq h.pos (hgives 0 _ rfl) (by decide)
  have hneg := CodecLaws.numbers.withDefault_eq [] h.neg (hgives 1 _ rfl)
    (by simp [defaults]; rfl)
  simp only [List.map_cons, List.map_nil] at hgiven
  simp only [ofJson?, hgiven, hpos, hneg, Option.bind_eq_bind, Option.bind_some]
  rfl

theorem inRange_of_ofJson? (h : ofJson? value = some goal) : goal.InRange := by
  simp only [ofJson?, Option.bind_eq_bind, Option.bind_eq_some_iff] at h
  obtain ⟨given, -, pos, hpos, neg, hneg, h⟩ := h
  cases h
  exact ⟨CodecLaws.numbers.inRange_required hpos,
    CodecLaws.numbers.inRange_withDefault hneg (by simp)⟩

end Goal

namespace State

variable {state : State}

theorem plain_toJson (state : State) : state.toJson.Plain := by
  apply plain_record
  simpa using CodecLaws.bool.list.plain state.values.toList (by simp)

theorem ofJson?_of_formOf (hform : FormOf [] state.toJson form) : ofJson? form = some state := by
  obtain ⟨given, hgiven, hgives⟩ := JsonFields.exists_of_formOf hform (by simp)
  have hvalues := CodecLaws.bool.list.required_eq (by simp) (hgives 0 _ rfl) (by decide)
  simp only [List.map_cons, List.map_nil] at hgiven
  simp only [ofJson?, hgiven, hvalues, Option.bind_eq_bind, Option.bind_some]
  rfl

end State

namespace PlanStep

structure InRange (step : PlanStep) : Prop where
  time : step.time < bound32
  actions : ∀ action ∈ step.actions, action < bound32

theorem ofJson?_of_formOf {step : PlanStep} (h : step.InRange)
    (hform : FormOf [] step.toJson form) : ofJson? form = some step := by
  obtain ⟨given, hgiven, hgives⟩ := JsonFields.exists_of_formOf hform (by simp)
  have htime := CodecLaws.nat32.required_eq h.time (hgives 0 _ rfl) (by decide)
  have hactions := CodecLaws.numbers.required_eq h.actions (hgives 1 _ rfl) (by decide)
  simp only [List.map_cons, List.map_nil] at hgiven
  simp only [ofJson?, hgiven, htime, hactions, Option.bind_eq_bind, Option.bind_some]
  rfl

theorem codecLaws : CodecLaws toJson ofJson? InRange where
  plain step h := by
    apply plain_record
    simp only [List.forall_mem_cons]
    exact ⟨CodecLaws.nat32.plain _ h.time, CodecLaws.numbers.plain _ h.actions, by simp⟩
  read_write _ h := ofJson?_of_formOf h (formOf_record [] _)
  inRange value step h := by
    simp only [ofJson?, Option.bind_eq_bind, Option.bind_eq_some_iff] at h
    obtain ⟨given, -, time, htime, actions, hactions, h⟩ := h
    cases h
    exact ⟨CodecLaws.nat32.inRange_required htime, CodecLaws.numbers.inRange_required hactions⟩

end PlanStep

namespace Plan

def InRange (plan : Plan) : Prop := ∀ step ∈ plan.steps, step.InRange

variable {plan : Plan}

theorem plain_toJson (h : plan.InRange) : plan.toJson.Plain := by
  apply plain_record
  simpa using PlanStep.codecLaws.list.plain plan.steps h

theorem ofJson?_of_formOf (h : plan.InRange) (hform : FormOf [] plan.toJson form) :
    ofJson? form = some plan := by
  obtain ⟨given, hgiven, hgives⟩ := JsonFields.exists_of_formOf hform (by simp)
  have hsteps := PlanStep.codecLaws.list.required_eq h (hgives 0 _ rfl) (by decide)
  simp only [List.map_cons, List.map_nil] at hgiven
  simp only [ofJson?, hgiven, hsteps, Option.bind_eq_bind, Option.bind_some]
  rfl

theorem inRange_of_ofJson? (h : ofJson? value = some plan) : plan.InRange := by
  simp only [ofJson?, Option.bind_eq_bind, Option.bind_eq_some_iff] at h
  obtain ⟨given, -, steps, hsteps, h⟩ := h
  cases h
  exact PlanStep.codecLaws.list.inRange_required hsteps

theorem codecLaws : CodecLaws toJson ofJson? InRange where
  plain _ := plain_toJson
  read_write _ h := ofJson?_of_formOf h (formOf_record [] _)
  inRange _ _ := inRange_of_ofJson?

end Plan

namespace SolverLimits

/-- The bounds of variables and clauses have 32 and 64 bits. -/
structure InRange (limits : SolverLimits) : Prop where
  maxVars : limits.maxVars < bound32
  maxClauses : limits.maxClauses < bound64

def defaults : List (String × JsonValue) :=
  let standard : SolverLimits := {}
  [("max_vars", .natural standard.maxVars), ("max_clauses", .natural standard.maxClauses)]

variable {limits : SolverLimits}

theorem plain_toJson (h : limits.InRange) : limits.toJson.Plain := by
  apply plain_record
  simp only [List.forall_mem_cons]
  exact ⟨CodecLaws.nat32.plain _ h.maxVars, CodecLaws.nat64.plain _ h.maxClauses, by simp⟩

theorem ofJson?_of_formOf (h : limits.InRange) (hform : FormOf defaults limits.toJson form) :
    ofJson? form = some limits := by
  obtain ⟨given, hgiven, hgives⟩ := JsonFields.exists_of_formOf hform (by simp)
  have hmaxVars := CodecLaws.nat32.withDefault_eq ({} : SolverLimits).maxVars
    h.maxVars (hgives 0 _ rfl) (by simp [defaults]; rfl)
  have hmaxClauses := CodecLaws.nat64.withDefault_eq ({} : SolverLimits).maxClauses
    h.maxClauses (hgives 1 _ rfl) (by simp [defaults]; rfl)
  simp only [List.map_cons, List.map_nil] at hgiven
  simp only [ofJson?, hgiven, hmaxVars, hmaxClauses, Option.bind_eq_bind, Option.bind_some]
  rfl

theorem inRange_of_ofJson? (h : ofJson? value = some limits) : limits.InRange := by
  simp only [ofJson?, Option.bind_eq_bind, Option.bind_eq_some_iff] at h
  obtain ⟨given, -, maxVars, hmaxVars, maxClauses, hmaxClauses, h⟩ := h
  cases h
  exact ⟨CodecLaws.nat32.inRange_withDefault hmaxVars (by decide),
    CodecLaws.nat64.inRange_withDefault hmaxClauses (by decide)⟩

theorem codecLaws : CodecLaws toJson ofJson? InRange where
  plain _ := plain_toJson
  read_write _ h := ofJson?_of_formOf h (formOf_record defaults _)
  inRange _ _ := inRange_of_ofJson?

end SolverLimits

namespace PlannerConfig

structure InRange (config : PlannerConfig) : Prop where
  timeoutSecs : config.timeoutSecs < bound64
  maxSteps : config.maxSteps < bound32
  limits : config.limits.InRange

def defaults : List (String × JsonValue) :=
  let standard : PlannerConfig := {}
  [("timeout_secs", .natural standard.timeoutSecs), ("max_steps", .natural standard.maxSteps),
    ("semantics", standard.semantics.toJson), ("limits", standard.limits.toJson),
    ("backend", standard.backend.toJson)]

variable {config : PlannerConfig}

theorem plain_toJson (h : config.InRange) : config.toJson.Plain := by
  apply plain_record
  simp only [List.forall_mem_cons]
  exact ⟨CodecLaws.nat64.plain _ h.timeoutSecs, CodecLaws.nat32.plain _ h.maxSteps,
    CodecLaws.semantics.plain _ trivial, SolverLimits.plain_toJson h.limits,
    CodecLaws.backend.plain _ trivial, by simp⟩

theorem ofJson?_of_formOf (h : config.InRange) (hform : FormOf defaults config.toJson form) :
    ofJson? form = some config := by
  obtain ⟨given, hgiven, hgives⟩ := JsonFields.exists_of_formOf hform (by simp)
  have htimeoutSecs := CodecLaws.nat64.withDefault_eq ({} : PlannerConfig).timeoutSecs
    h.timeoutSecs (hgives 0 _ rfl) (by simp [defaults]; rfl)
  have hmaxSteps := CodecLaws.nat32.withDefault_eq ({} : PlannerConfig).maxSteps
    h.maxSteps (hgives 1 _ rfl) (by simp [defaults]; rfl)
  have hsemantics := CodecLaws.semantics.withDefault_eq ({} : PlannerConfig).semantics
    trivial (hgives 2 _ rfl) (by simp [defaults]; rfl)
  have hlimits := SolverLimits.codecLaws.withDefault_eq ({} : PlannerConfig).limits
    h.limits (hgives 3 _ rfl) (by simp [defaults]; rfl)
  have hbackend := CodecLaws.backend.withDefault_eq ({} : PlannerConfig).backend
    trivial (hgives 4 _ rfl) (by simp [defaults]; rfl)
  simp only [List.map_cons, List.map_nil] at hgiven
  simp only [ofJson?, hgiven, htimeoutSecs, hmaxSteps, hsemantics, hlimits, hbackend,
    Option.bind_eq_bind, Option.bind_some]
  rfl

theorem inRange_of_ofJson? (h : ofJson? value = some config) : config.InRange := by
  simp only [ofJson?, Option.bind_eq_bind, Option.bind_eq_some_iff] at h
  obtain ⟨given, -, timeoutSecs, htimeoutSecs, maxSteps, hmaxSteps, semantics, -, limits, hlimits,
    backend, -, h⟩ := h
  cases h
  exact ⟨CodecLaws.nat64.inRange_withDefault htimeoutSecs (by decide),
    CodecLaws.nat32.inRange_withDefault hmaxSteps (by decide),
    SolverLimits.codecLaws.inRange_withDefault hlimits ⟨by decide, by decide⟩⟩

end PlannerConfig

namespace ReportStep

def InRange (step : ReportStep) : Prop := step.time < bound32

theorem ofJson?_of_formOf {step : ReportStep} (h : step.InRange)
    (hform : FormOf [] step.toJson form) : ofJson? form = some step := by
  obtain ⟨given, hgiven, hgives⟩ := JsonFields.exists_of_formOf hform (by simp)
  have htime := CodecLaws.nat32.required_eq h (hgives 0 _ rfl) (by decide)
  have hactions := CodecLaws.text.list.required_eq (by simp) (hgives 1 _ rfl) (by decide)
  simp only [List.map_cons, List.map_nil] at hgiven
  simp only [ofJson?, hgiven, htime, hactions, Option.bind_eq_bind, Option.bind_some]
  rfl

theorem codecLaws : CodecLaws toJson ofJson? InRange where
  plain step h := by
    apply plain_record
    simp only [List.forall_mem_cons]
    exact ⟨CodecLaws.nat32.plain _ h, CodecLaws.text.list.plain _ (by simp), by simp⟩
  read_write _ h := ofJson?_of_formOf h (formOf_record [] _)
  inRange value step h := by
    simp only [ofJson?, Option.bind_eq_bind, Option.bind_eq_some_iff] at h
    obtain ⟨given, -, time, htime, actions, -, h⟩ := h
    cases h
    exact CodecLaws.nat32.inRange_required htime

end ReportStep

namespace HorizonRecord

structure InRange (record : HorizonRecord) : Prop where
  horizon : record.horizon < bound32
  vars : record.vars < bound32
  clauses : record.clauses < bound64
  solveTimeMs : record.solveTimeMs < bound64

theorem ofJson?_of_formOf {record : HorizonRecord} (h : record.InRange)
    (hform : FormOf [] record.toJson form) : ofJson? form = some record := by
  obtain ⟨given, hgiven, hgives⟩ := JsonFields.exists_of_formOf hform (by simp)
  have hhorizon := CodecLaws.nat32.required_eq h.horizon (hgives 0 _ rfl) (by decide)
  have hvars := CodecLaws.nat32.required_eq h.vars (hgives 1 _ rfl) (by decide)
  have hclauses := CodecLaws.nat64.required_eq h.clauses (hgives 2 _ rfl) (by decide)
  have hstatus := CodecLaws.status.required_eq trivial (hgives 3 _ rfl) (by decide)
  have hsolveTimeMs := CodecLaws.nat64.required_eq h.solveTimeMs (hgives 4 _ rfl) (by decide)
  simp only [List.map_cons, List.map_nil] at hgiven
  simp only [ofJson?, hgiven, hhorizon, hvars, hclauses, hstatus, hsolveTimeMs,
    Option.bind_eq_bind, Option.bind_some]
  rfl

theorem codecLaws : CodecLaws toJson ofJson? InRange where
  plain record h := by
    apply plain_record
    simp only [List.forall_mem_cons]
    exact ⟨CodecLaws.nat32.plain _ h.horizon, CodecLaws.nat32.plain _ h.vars,
      CodecLaws.nat64.plain _ h.clauses, CodecLaws.status.plain _ trivial,
      CodecLaws.nat64.plain _ h.solveTimeMs, by simp⟩
  read_write _ h := ofJson?_of_formOf h (formOf_record [] _)
  inRange value record h := by
    simp only [ofJson?, Option.bind_eq_bind, Option.bind_eq_some_iff] at h
    obtain ⟨given, -, horizon, hhorizon, vars, hvars, clauses, hclauses, status, -, solveTimeMs,
      hsolveTimeMs, h⟩ := h
    cases h
    exact ⟨CodecLaws.nat32.inRange_required hhorizon, CodecLaws.nat32.inRange_required hvars,
      CodecLaws.nat64.inRange_required hclauses, CodecLaws.nat64.inRange_required hsolveTimeMs⟩

end HorizonRecord

end BoundedPlanning
