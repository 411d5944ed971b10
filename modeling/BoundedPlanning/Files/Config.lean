import BoundedPlanning.Files.Content
import BoundedPlanning.Serialized.Planner
import BoundedPlanning.Yaml.Fields

namespace BoundedPlanning

open Yaml

def SolverLimits.ofNode (node : Node) : Reading SolverLimits := do
  let fields ← Fields.ofNode ["max_vars", "max_clauses"] false node
  let standard : SolverLimits := {}
  return {
    maxVars := ← fields.withDefault 0 Node.nat32 standard.maxVars
    maxClauses := ← fields.withDefault 1 Node.nat64 standard.maxClauses }

namespace PlannerConfig

def ofNode (node : Node) : Reading PlannerConfig := do
  let fields ←
    Fields.ofNode ["timeout_secs", "max_steps", "semantics", "limits", "backend"] false node
  let standard : PlannerConfig := {}
  return {
    timeoutSecs := ← fields.withDefault 0 Node.nat64 standard.timeoutSecs
    maxSteps := ← fields.withDefault 1 Node.nat32 standard.maxSteps
    semantics := ← fields.withDefault 2 (Node.choice StepSemantics.ofText?) standard.semantics
    limits := ← fields.withDefault 3 SolverLimits.ofNode standard.limits
    backend := ← fields.withDefault 4 (Node.choice BackendKind.ofName?) standard.backend }

def load (files : Files) (path : String) : Except FileError PlannerConfig :=
  files.load "config" path fun text => (Document.ofText? text).bind (Document.read? ofNode)

end PlannerConfig

end BoundedPlanning
