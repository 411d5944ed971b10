import BoundedPlanning.Planner.Report
import BoundedPlanning.Serialized.Problem

namespace BoundedPlanning

open JsonValue

namespace StepSemantics

def ofText? : String → Option StepSemantics
  | "sequential" => some .sequential
  | "parallel" => some .parallel
  | _ => none

def toJson (semantics : StepSemantics) : JsonValue := .text semantics.text

def ofJson? (value : JsonValue) : Option StepSemantics := value.choice?.bind ofText?

end StepSemantics

namespace HorizonStatus

def ofText? : String → Option HorizonStatus
  | "sat" => some .sat
  | "unsat" => some .unsat
  | "timed-out" => some .timedOut
  | _ => none

def toJson (status : HorizonStatus) : JsonValue := .text status.text

def ofJson? (value : JsonValue) : Option HorizonStatus := value.choice?.bind ofText?

end HorizonStatus

namespace BackendKind

/-- The kind with exactly the given name. -/
def ofName? : String → Option BackendKind
  | "batsat" => some .batsat
  | "z3" => some .z3
  | "reference" => some .reference
  | _ => none

def toJson (kind : BackendKind) : JsonValue := .text kind.text

def ofJson? (value : JsonValue) : Option BackendKind := value.choice?.bind ofName?

end BackendKind

namespace SolverLimits

def toJson (limits : SolverLimits) : JsonValue :=
  .record [("max_vars", .natural limits.maxVars), ("max_clauses", .natural limits.maxClauses)]

def ofJson? (value : JsonValue) : Option SolverLimits := do
  let fields ← JsonFields.ofValue? ["max_vars", "max_clauses"] value
  let standard : SolverLimits := {}
  return {
    maxVars := ← fields.withDefault 0 nat32? standard.maxVars
    maxClauses := ← fields.withDefault 1 nat64? standard.maxClauses }

end SolverLimits

namespace PlannerConfig

def toJson (config : PlannerConfig) : JsonValue :=
  .record [("timeout_secs", .natural config.timeoutSecs), ("max_steps", .natural config.maxSteps),
    ("semantics", config.semantics.toJson), ("limits", config.limits.toJson),
    ("backend", config.backend.toJson)]

def ofJson? (value : JsonValue) : Option PlannerConfig := do
  let fields ←
    JsonFields.ofValue? ["timeout_secs", "max_steps", "semantics", "limits", "backend"] value
  let standard : PlannerConfig := {}
  return {
    timeoutSecs := ← fields.withDefault 0 nat64? standard.timeoutSecs
    maxSteps := ← fields.withDefault 1 nat32? standard.maxSteps
    semantics := ← fields.withDefault 2 StepSemantics.ofJson? standard.semantics
    limits := ← fields.withDefault 3 SolverLimits.ofJson? standard.limits
    backend := ← fields.withDefault 4 BackendKind.ofJson? standard.backend }

end PlannerConfig

namespace ReportStep

def toJson (step : ReportStep) : JsonValue :=
  .record [("time", .natural step.time), ("actions", .list .text step.actions)]

def ofJson? (value : JsonValue) : Option ReportStep := do
  let fields ← JsonFields.ofValue? ["time", "actions"] value
  return {
    time := ← fields.required 0 nat32?
    actions := ← fields.required 1 (list? text?) }

end ReportStep

namespace HorizonRecord

def toJson (record : HorizonRecord) : JsonValue :=
  .record [("horizon", .natural record.horizon), ("vars", .natural record.vars),
    ("clauses", .natural record.clauses), ("status", record.status.toJson),
    ("solve_time_ms", .natural record.solveTimeMs)]

def ofJson? (value : JsonValue) : Option HorizonRecord := do
  let fields ←
    JsonFields.ofValue? ["horizon", "vars", "clauses", "status", "solve_time_ms"] value
  return {
    horizon := ← fields.required 0 nat32?
    vars := ← fields.required 1 nat32?
    clauses := ← fields.required 2 nat64?
    status := ← fields.required 3 HorizonStatus.ofJson?
    solveTimeMs := ← fields.required 4 nat64? }

end HorizonRecord

namespace Timestamp

def toJson (stamp : Timestamp) : JsonValue := .text stamp.text

def ofJson? (value : JsonValue) : Option Timestamp := value.text?.bind ofText?

end Timestamp

namespace PlanReport

def toJson (report : PlanReport) : JsonValue :=
  .record [("outcome", .text report.outcome), ("message", .text report.message),
    ("horizon", .optional .natural report.horizon), ("steps", .list ReportStep.toJson report.steps),
    ("plan", .optional Plan.toJson report.plan), ("validated", .bool report.validated),
    ("semantics", report.semantics.toJson), ("backend", report.backend.toJson),
    ("horizons", .list HorizonRecord.toJson report.horizons),
    ("total_time_ms", .natural report.totalTimeMs), ("generated_at", report.generatedAt.toJson)]

def ofJson? (value : JsonValue) : Option PlanReport := do
  let fields ← JsonFields.ofValue? ["outcome", "message", "horizon", "steps", "plan", "validated",
    "semantics", "backend", "horizons", "total_time_ms", "generated_at"] value
  return {
    outcome := ← fields.required 0 text?
    message := ← fields.required 1 text?
    horizon := ← fields.nullable 2 nat32?
    steps := ← fields.required 3 (list? ReportStep.ofJson?)
    plan := ← fields.nullable 4 Plan.ofJson?
    validated := ← fields.required 5 bool?
    semantics := ← fields.required 6 StepSemantics.ofJson?
    backend := ← fields.required 7 BackendKind.ofJson?
    horizons := ← fields.required 8 (list? HorizonRecord.ofJson?)
    totalTimeMs := ← fields.required 9 nat64?
    generatedAt := ← fields.required 10 Timestamp.ofJson? }

def text (report : PlanReport) : String := report.toJson.pretty

end PlanReport

end BoundedPlanning
