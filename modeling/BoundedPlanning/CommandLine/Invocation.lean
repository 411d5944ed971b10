import BoundedPlanning.CommandLine.Arguments
import BoundedPlanning.Files.Config
import BoundedPlanning.Text.Digits

namespace BoundedPlanning.CommandLine

structure Options where
  domain : Option String := none
  problem : Option String := none
  timeout : Option Nat := none
  maxSteps : Option Nat := none
  config : Option String := none
  parallel : Bool := false
  backend : Option BackendKind := none
  report : Option String := none
  verbose : Bool := false
  deriving DecidableEq, Repr

structure Request where
  domain : String
  problem : String
  timeout : Option Nat
  maxSteps : Option Nat
  config : Option String
  parallel : Bool
  backend : Option BackendKind
  report : Option String
  deriving DecidableEq, Repr

inductive Invocation
  | plan (request : Request)
  | help
  | version
  | misuse
  deriving DecidableEq, Repr

/-- A natural number in decimal, perhaps with a plus in front. -/
def naturalOfText? (text : String) : Option Nat :=
  let digits := match text.toList with
    | '+' :: rest => rest
    | cs => cs
  numberInBase? 10 digits

/-- A budget in seconds, of 64 bits. -/
def timeoutOfText? (text : String) : Option Nat :=
  (naturalOfText? text).filter fun value => decide (value < bound64)

/-- A number of steps, at least 1 and of 32 bits. -/
def maxStepsOfText? (text : String) : Option Nat :=
  (naturalOfText? text).filter fun value => decide (1 ≤ value) && decide (value < bound32)

def existing? (isFile : String → Bool) (path : String) : Option String :=
  if isFile path then some path else none

/-- Give an option a value, unless it has one. -/
def once {α : Type} (present : Option α) (value : Option α) : Option (Option α) :=
  if present.isSome then none else value.map some

def flagOnce (present : Bool) : Option Bool := if present then none else some true

namespace Options

def take? (isFile : String → Bool) (options : Options) (setting : Setting) : Option Options :=
  match setting with
  | .domain path => do
    return { options with domain := ← once options.domain (existing? isFile path) }
  | .problem path => do
    return { options with problem := ← once options.problem (existing? isFile path) }
  | .timeout text => do
    return { options with timeout := ← once options.timeout (timeoutOfText? text) }
  | .maxSteps text => do
    return { options with maxSteps := ← once options.maxSteps (maxStepsOfText? text) }
  | .config path => do
    return { options with config := ← once options.config (existing? isFile path) }
  | .parallel => do
    return { options with parallel := ← flagOnce options.parallel }
  | .backend name => do
    return { options with backend := ← once options.backend (BackendKind.ofText? name) }
  | .report path => do
    return { options with
      report := ← once options.report (if path.isEmpty then none else some path) }
  | .verbose => do
    return { options with verbose := ← flagOnce options.verbose }

def request? (options : Options) : Option Request := do
  return {
    domain := ← options.domain
    problem := ← options.problem
    timeout := options.timeout
    maxSteps := options.maxSteps
    config := options.config
    parallel := options.parallel
    backend := options.backend
    report := options.report }

end Options

/-- What scanned arguments ask for, given which paths are those of files. -/
def Scanned.invocation (isFile : String → Bool) (scanned : Scanned) : Invocation :=
  match scanned.settings.foldlM (Options.take? isFile) {} with
  | none => .misuse
  | some options =>
    match scanned.ending with
    | .help => .help
    | .version => .version
    | .misuse => .misuse
    | .complete =>
      match options.request? with
      | some request => .plan request
      | none => .misuse

/-- The settings of a task: those of its settings file, changed by its options. -/
def Request.plannerConfig (files : Files) (request : Request) : Except FileError PlannerConfig := do
  let config ←
    match request.config with
    | some path => PlannerConfig.load files path
    | none => .ok {}
  return { config with
    timeoutSecs := request.timeout.getD config.timeoutSecs
    maxSteps := request.maxSteps.getD config.maxSteps
    semantics := if request.parallel then .parallel else config.semantics
    backend := request.backend.getD config.backend }

end BoundedPlanning.CommandLine
