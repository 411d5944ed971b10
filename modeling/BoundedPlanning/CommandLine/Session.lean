import BoundedPlanning.CommandLine.Invocation
import BoundedPlanning.Files.Problem
import BoundedPlanning.Planner.Loop

/-!
A run of the program: load the files, plan, report, print the plan.  The report is written before
anything is printed; when it cannot be written, nothing is.
-/

namespace BoundedPlanning.CommandLine

structure Reply where
  exitCode : Nat
  stdout : String
  stderr : String
  deriving DecidableEq, Repr

/-- What the program does outside itself: it asks for the times of the run, writes a file, and
prints.  Writing and printing may fail. -/
structure Outlet (m : Type → Type) where
  times : m RunTimes
  write : String → ByteArray → m Bool
  print : String → m Bool

/-- A reply, and the report to be written before it is given, which states the times of the run. -/
structure Conclusion where
  report : Option (String × (RunTimes → PlanReport))
  reply : Reply

inductive SessionError
  | config (error : FileError)
  | load (error : LoadError)
  | plan (error : PlanError)
  | unwrittenReport (path : String)
  /-- The budget leads beyond the times that a clock can tell. -/
  | endlessBudget
  | unprinted
  deriving DecidableEq, Repr

def SessionError.message : SessionError → String
  | .config error => error.message
  | .load error => error.message
  | .plan error => error.message
  | .unwrittenReport path => s!"Failed to write report to {path}"
  | .endlessBudget => "the clock cannot tell when the budget is used up"
  | .unprinted => "the plan cannot be printed"

/-- A run that cannot tell when to stop or cannot print is broken off; other errors are ordinary
failures. -/
def SessionError.exitCode : SessionError → Nat
  | .endlessBudget => 101
  | .unprinted => 101
  | _ => 1

def SessionError.reply (error : SessionError) : Reply :=
  ⟨error.exitCode, "", s!"Error: {error.message}\n"⟩

def helpText : String :=
  "Bounded SAT-based planner for grounded STRIPS problems\n\n" ++
  "Usage: satplan [OPTIONS] --domain <DOMAIN> --problem <PROBLEM>\n\n" ++
  "Options:\n" ++
  "  -o, --domain <DOMAIN>        Grounded domain file (facts and actions)\n" ++
  "  -f, --problem <PROBLEM>      Grounded problem file (initial state and goal)\n" ++
  "  -t, --timeout <TIMEOUT>      Solver timeout per horizon in seconds, 0 for none\n" ++
  "  -n, --max-steps <MAX_STEPS>  Maximum number of steps, at least 1\n" ++
  "      --config <CONFIG>        Planner configuration (YAML)\n" ++
  "      --parallel               Allow several non-interfering actions per step\n" ++
  "      --backend <BACKEND>      SAT backend (batsat, z3, reference)\n" ++
  "      --report <REPORT>        Write a JSON report of the run\n" ++
  "  -v, --verbose                Verbose output\n" ++
  "  -h, --help                   Print help\n" ++
  "  -V, --version                Print version\n"

def versionText : String := "satplan 0.1.0\n"

def usageText : String :=
  "error: the arguments cannot be used\n\n" ++
  "Usage: satplan [OPTIONS] --domain <DOMAIN> --problem <PROBLEM>\n\n" ++
  "For more information, try '--help'.\n"

def twoDigits (n : Nat) : String := if n < 10 then s!"0{n}" else toString n

/-- One line for each action of a plan, in execution order: its time and its name. -/
def planListing (plan : Plan) (problem : Problem) : String :=
  String.join <| plan.steps.flatMap fun step => step.actions.map fun id =>
    let name := ((problem.action? id).map Action.name).getD "?"
    s!"{twoDigits step.time}: ({name})\n"

def replyTo (problem : Problem) (run : PlanRun) : Reply :=
  match run.outcome.plan? with
  | some plan => ⟨0, planListing plan problem, ""⟩
  | none => ⟨1, "", s!"no plan: {run.outcome.message}\n"⟩

def Request.concludeRun (request : Request) (config : PlannerConfig) (problem : Problem)
    (run : PlanRun) : Conclusion where
  report := request.report.map fun path => (path, PlanReport.ofRun problem run config)
  reply := replyTo problem run

section Tasks

variable {ε ζ : Type} (installation : Installation ε ζ)

/-- Plan for a task.  The clock is asked for the end of the budget when the solver is called. -/
def planWithin (config : PlannerConfig) (problem : Problem) : Except SessionError PlanRun := do
  if config.backend.asksClock && installation.longestBudget < config.timeoutSecs then
    let solver ← (config.backend.create installation config.limits).mapError fun error =>
      .plan (.solver error)
    let backend := BuiltinSolver.backend.timingOut
    let run ← ((planWith backend config problem).run.run solver).1.mapError .plan
    if run.stats.isEmpty then return run else throw .endlessBudget
  else (plan installation config problem).mapError .plan

def Request.conclude (files : Files) (request : Request) : Except SessionError Conclusion := do
  let config ← (request.plannerConfig files).mapError .config
  let problem ← (loadProblem files request.domain request.problem).mapError .load
  let run ← planWithin installation config problem
  return request.concludeRun config problem run

end Tasks

section Runs

variable {m : Type → Type} [Monad m] (outlet : Outlet m)

def Conclusion.writeReport (conclusion : Conclusion) : m Bool :=
  match conclusion.report with
  | none => return true
  | some (path, report) => do
    let times ← outlet.times
    outlet.write path (report times).text.toUTF8

/-- Write the report and print the reply; nothing is printed without the report. -/
def Conclusion.settle (conclusion : Conclusion) : m Reply := do
  if !(← conclusion.writeReport outlet) then
    let path := (conclusion.report.map Prod.fst).getD ""
    return (SessionError.unwrittenReport path).reply
  if conclusion.reply.stdout.isEmpty then return conclusion.reply
  if ← outlet.print conclusion.reply.stdout then return conclusion.reply
  return SessionError.unprinted.reply

/-- Print a text that was asked for; it does not matter whether that fails. -/
def announce (text : String) : m Reply := do
  discard (outlet.print text)
  return ⟨0, text, ""⟩

def Invocation.run {ε ζ : Type} (installation : Installation ε ζ) (files : Files) :
    Invocation → m Reply
  | .help => announce outlet helpText
  | .version => announce outlet versionText
  | .misuse => return ⟨2, "", usageText⟩
  | .plan request =>
    match request.conclude installation files with
    | .ok conclusion => conclusion.settle outlet
    | .error error => return error.reply

/-- Run the program: what it replies, of which it has printed what is for standard output. -/
def run {ε ζ : Type} (installation : Installation ε ζ) (isFile : String → Bool) (files : Files)
    (arguments : List String) : m Reply :=
  ((scan arguments).invocation isFile).run outlet installation files

end Runs

end BoundedPlanning.CommandLine
