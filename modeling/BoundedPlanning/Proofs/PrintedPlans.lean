import BoundedPlanning.Proofs.ConfiguredPlanning
import BoundedPlanning.Proofs.PlanListing

namespace BoundedPlanning

namespace CommandLine

/-- What the files of a task hold: its settings, its domain, and its problem, which is put together
from both. -/
structure Request.Loads (request : Request) (files : Files) (config : PlannerConfig)
    (domain : DomainFile) (file : ProblemFile) (problem : Problem) : Prop where
  config_eq : request.plannerConfig files = .ok config
  domain_eq : DomainFile.load files request.domain = .ok domain
  file_eq : ProblemFile.load files request.problem = .ok file
  problem_eq : resolve domain file = .ok problem

/-- What is printed can be seen on standard output; asking for the times and writing the report
cannot. -/
structure Outlet.Shows {ω : Type} (outlet : Outlet (StateM ω)) (stdout : ω → String)
    (report : Option String) : Prop where
  times : ∀ world, stdout (outlet.times world).2 = stdout world
  write : ∀ path ∈ report, ∀ bytes world,
    stdout (outlet.write path bytes world).2 = stdout world
  print : ∀ text world, (outlet.print text world).1 = true ∧
    stdout (outlet.print text world).2 = stdout world ++ text

section Conclusions

variable {ε ζ : Type} {installation : Installation ε ζ} {files : Files} {request : Request}
  {config : PlannerConfig} {domain : DomainFile} {file : ProblemFile} {problem : Problem}
  {run : PlanRun} {conclusion : Conclusion}

theorem Request.Loads.standsFor (h : request.Loads files config domain file problem) :
    problem.StandsFor domain file :=
  standsFor_of_resolve h.problem_eq

theorem Request.conclude_eq_ok_iff :
    request.conclude installation files = .ok conclusion ↔
      ∃ config domain file problem run, request.Loads files config domain file problem ∧
        planWithin installation config problem = .ok run ∧
        request.concludeRun config problem run = conclusion := by
  constructor
  · intro h
    obtain ⟨config, hconfig, h⟩ := except_bind_eq_ok h
    obtain ⟨problem, hproblem, h⟩ := except_bind_eq_ok h
    obtain ⟨run, hrun, h⟩ := except_bind_eq_ok h
    obtain ⟨domain, file, hdomain, hfile, hresolve⟩ :=
      loadProblem_eq_ok_iff.mp (except_mapError_eq_ok hproblem)
    exact ⟨config, domain, file, problem, run,
      ⟨except_mapError_eq_ok hconfig, hdomain, hfile, hresolve⟩, hrun, Except.ok.inj h⟩
  · rintro ⟨config, domain, file, problem, run, ⟨hconfig, hdomain, hfile, hresolve⟩, hrun, rfl⟩
    rw [conclude, hconfig, loadProblem_eq_ok_iff.mpr ⟨domain, file, hdomain, hfile, hresolve⟩]
    simp only [Except.mapError, bind, Except.bind, hrun]
    rfl

theorem SessionError.exitCode_ne_zero (error : SessionError) : error.exitCode ≠ 0 := by
  cases error <;> simp [exitCode]

theorem exitCode_replyTo :
    (replyTo problem run).exitCode = 0 ↔ ∃ plan horizon, run.outcome = .found plan horizon := by
  unfold replyTo
  cases run.outcome <;> simp [PlanOutcome.plan?]

theorem stdout_replyTo (h : (replyTo problem run).exitCode ≠ 0) :
    (replyTo problem run).stdout = "" := by
  unfold replyTo at h ⊢
  cases hplan : run.outcome.plan? with
  | none => rfl
  | some plan => simp [hplan] at h

end Conclusions

section Runs

variable {ε ζ ω : Type} {installation : Installation ε ζ} {outlet : Outlet (StateM ω)}
  {stdout : ω → String} {isFile : String → Bool} {files : Files} {arguments : List String}
  {request : Request} {config : PlannerConfig} {domain : DomainFile} {file : ProblemFile}
  {problem : Problem} {run : PlanRun} {world after reported : ω} {reply : Reply} {written : Bool}

theorem Outlet.Shows.stdout_eq (h : outlet.Shows stdout request.report)
    (hreported : (request.concludeRun config problem run).writeReport outlet world =
      (written, reported)) : stdout reported = stdout world := by
  unfold Conclusion.writeReport Request.concludeRun at hreported
  cases hpath : request.report with
  | none =>
      rw [hpath] at hreported
      cases hreported
      rfl
  | some path =>
      rw [hpath] at hreported
      obtain rfl := congrArg Prod.snd hreported
      exact (h.write path hpath _ _).trans (h.times world)

theorem settle_of_unwritten {conclusion : Conclusion}
    (h : conclusion.writeReport outlet world = (false, reported)) :
    conclusion.settle outlet world =
      ((SessionError.unwrittenReport ((conclusion.report.map Prod.fst).getD "")).reply,
        reported) := by
  simp only [Conclusion.settle, bind, StateT.bind, h]
  rfl

theorem settle_of_silent {conclusion : Conclusion}
    (h : conclusion.writeReport outlet world = (true, reported))
    (hsilent : conclusion.reply.stdout = "") :
    conclusion.settle outlet world = (conclusion.reply, reported) := by
  simp only [Conclusion.settle, bind, StateT.bind, h, hsilent]
  rfl

theorem settle_of_printed {conclusion : Conclusion} {printed : ω}
    (h : conclusion.writeReport outlet world = (true, reported))
    (hprints : conclusion.reply.stdout ≠ "")
    (hprint : outlet.print conclusion.reply.stdout reported = (true, printed)) :
    conclusion.settle outlet world = (conclusion.reply, printed) := by
  have hempty : conclusion.reply.stdout.isEmpty = false := by
    rwa [← Bool.not_eq_true, String.isEmpty_iff]
  simp only [Conclusion.settle, bind, StateT.bind, h, hempty, Bool.not_true, Bool.false_eq_true,
    if_false, hprint]
  rfl

/-- With a report that is written, or none, the reply to the run is given and what is for standard
output is printed; otherwise there is an error. -/
theorem settle_cases (hshows : outlet.Shows stdout request.report)
    (hreported : (request.concludeRun config problem run).writeReport outlet world =
      (written, reported))
    (hsettle : (request.concludeRun config problem run).settle outlet world = (reply, after)) :
    (written = true ∧ reply = replyTo problem run ∧ stdout after = stdout world ++ reply.stdout ∧
      (after = reported ∨
        reply.exitCode = 0 ∧ after = (outlet.print reply.stdout reported).2)) ∨
    (written = false ∧ (∃ error : SessionError, reply = error.reply) ∧
      stdout after = stdout world ∧ after = reported) := by
  have hstdout := hshows.stdout_eq hreported
  cases written with
  | false =>
      rw [settle_of_unwritten hreported] at hsettle
      cases hsettle
      exact Or.inr ⟨rfl, ⟨_, rfl⟩, hstdout, rfl⟩
  | true =>
      by_cases hsilent : (replyTo problem run).stdout = ""
      · rw [settle_of_silent hreported hsilent] at hsettle
        cases hsettle
        refine Or.inl ⟨rfl, rfl, ?_, Or.inl rfl⟩
        rw [Request.concludeRun, hsilent, String.append_empty, hstdout]
      · obtain ⟨hprint, hshown⟩ := hshows.print (replyTo problem run).stdout reported
        rw [settle_of_printed hreported hsilent (Prod.ext hprint rfl)] at hsettle
        cases hsettle
        rw [hstdout] at hshown
        refine Or.inl ⟨rfl, rfl, hshown, Or.inr ⟨?_, rfl⟩⟩
        exact not_not.mp fun hfails => hsilent (stdout_replyTo hfails)

variable (hparsed : (scan arguments).invocation isFile = .plan request)
include hparsed

theorem run_of_planned (hloads : request.Loads files config domain file problem)
    (hplanned : planWithin installation config problem = .ok run) :
    CommandLine.run outlet installation isFile files arguments =
      (request.concludeRun config problem run).settle outlet := by
  rw [CommandLine.run, hparsed, Invocation.run,
    Request.conclude_eq_ok_iff.mpr ⟨_, _, _, _, _, hloads, hplanned, rfl⟩]

theorem run_of_unplanned
    (hunplanned : ∀ config domain file problem run,
      request.Loads files config domain file problem →
        planWithin installation config problem ≠ .ok run) :
    ∃ error : SessionError,
      CommandLine.run outlet installation isFile files arguments = pure error.reply := by
  rw [CommandLine.run, hparsed, Invocation.run]
  cases hconclude : request.conclude installation files with
  | error error => exact ⟨error, rfl⟩
  | ok conclusion =>
      obtain ⟨config, domain, file, problem, run, hloads, hplanned, -⟩ :=
        Request.conclude_eq_ok_iff.mp hconclude
      exact absurd hplanned (hunplanned config domain file problem run hloads)

variable (hrun : CommandLine.run outlet installation isFile files arguments world = (reply, after))
include hrun

theorem after_of_unplanned
    (hunplanned : ∀ config domain file problem run,
      request.Loads files config domain file problem →
        planWithin installation config problem ≠ .ok run) :
    (∃ error : SessionError, reply = error.reply) ∧ after = world := by
  obtain ⟨error, herror⟩ : ∃ error : SessionError,
      CommandLine.run outlet installation isFile files arguments = pure error.reply :=
    run_of_unplanned hparsed hunplanned
  rw [herror] at hrun
  cases hrun
  exact ⟨⟨error, rfl⟩, rfl⟩

variable (hshows : outlet.Shows stdout request.report)
include hshows

theorem cases_of_planned (hloads : request.Loads files config domain file problem)
    (hplanned : planWithin installation config problem = .ok run)
    (hreported : (request.concludeRun config problem run).writeReport outlet world =
      (written, reported)) :
    (written = true ∧ reply = replyTo problem run ∧ stdout after = stdout world ++ reply.stdout ∧
      (after = reported ∨
        reply.exitCode = 0 ∧ after = (outlet.print reply.stdout reported).2)) ∨
    (written = false ∧ (∃ error : SessionError, reply = error.reply) ∧
      stdout after = stdout world ∧ after = reported) := by
  rw [run_of_planned hparsed hloads hplanned] at hrun
  exact settle_cases hshows hreported hrun

theorem exitCode_eq_zero_iff_of_planned
    (hloads : request.Loads files config domain file problem)
    (hplanned : planWithin installation config problem = .ok run) :
    reply.exitCode = 0 ↔ (∃ plan horizon, run.outcome = .found plan horizon) ∧
      ((request.concludeRun config problem run).writeReport outlet world).1 = true := by
  obtain ⟨hwritten, rfl, -⟩ | ⟨hwritten, ⟨error, rfl⟩, -⟩ :=
    cases_of_planned hparsed hrun hshows hloads hplanned Prod.mk.eta.symm
  · rw [exitCode_replyTo, and_iff_left hwritten]
  · refine iff_of_false error.exitCode_ne_zero fun h => ?_
    rw [hwritten] at h
    exact Bool.false_ne_true h.2

theorem exitCode_eq_zero_iff :
    reply.exitCode = 0 ↔
      ∃ config domain file problem plan horizon stats,
        request.Loads files config domain file problem ∧
        planWithin installation config problem = .ok ⟨.found plan horizon, stats⟩ ∧
        ((request.concludeRun config problem ⟨.found plan horizon, stats⟩).writeReport outlet
          world).1 = true := by
  constructor
  · intro hzero
    by_cases hplanned : ∃ config domain file problem run,
        request.Loads files config domain file problem ∧
          planWithin installation config problem = .ok run
    · obtain ⟨config, domain, file, problem, ⟨outcome, stats⟩, hloads, hplanned⟩ := hplanned
      obtain ⟨⟨plan, horizon, rfl⟩, hwritten⟩ :=
        (exitCode_eq_zero_iff_of_planned hparsed hrun hshows hloads hplanned).mp hzero
      exact ⟨config, domain, file, problem, plan, horizon, stats, hloads, hplanned, hwritten⟩
    · obtain ⟨⟨error, rfl⟩, -⟩ := after_of_unplanned hparsed hrun
        fun config domain file problem run hloads hrun =>
          hplanned ⟨config, domain, file, problem, run, hloads, hrun⟩
      exact absurd hzero error.exitCode_ne_zero
  · rintro ⟨config, domain, file, problem, plan, horizon, stats, hloads, hplanned, hwritten⟩
    exact (exitCode_eq_zero_iff_of_planned hparsed hrun hshows hloads hplanned).mpr
      ⟨⟨plan, horizon, rfl⟩, hwritten⟩

theorem stdout_of_failure (hfails : reply.exitCode ≠ 0) : stdout after = stdout world := by
  by_cases hplanned : ∃ config domain file problem run,
      request.Loads files config domain file problem ∧
        planWithin installation config problem = .ok run
  · obtain ⟨config, domain, file, problem, run, hloads, hplanned⟩ := hplanned
    obtain ⟨-, rfl, hstdout, -⟩ | ⟨-, -, hstdout, -⟩ :=
      cases_of_planned hparsed hrun hshows hloads hplanned Prod.mk.eta.symm
    · rwa [stdout_replyTo hfails, String.append_empty] at hstdout
    · exact hstdout
  · rw [(after_of_unplanned hparsed hrun fun config domain file problem run hloads hrun =>
      hplanned ⟨config, domain, file, problem, run, hloads, hrun⟩).2]

theorem after_of_planned (hloads : request.Loads files config domain file problem)
    (hplanned : planWithin installation config problem = .ok run)
    (hreported : (request.concludeRun config problem run).writeReport outlet world =
      (written, reported)) :
    after = reported ∨ reply.exitCode = 0 ∧ after = (outlet.print reply.stdout reported).2 := by
  obtain ⟨-, -, -, hafter⟩ | ⟨-, -, -, hafter⟩ :=
    cases_of_planned hparsed hrun hshows hloads hplanned hreported
  · exact hafter
  · exact Or.inl hafter

theorem stdout_of_found (hloads : request.Loads files config domain file problem) {plan : Plan}
    {horizon : Nat} {stats : List HorizonStats}
    (hplanned : planWithin installation config problem = .ok ⟨.found plan horizon, stats⟩)
    (hzero : reply.exitCode = 0) :
    stdout after = stdout world ++ planListing plan problem := by
  obtain ⟨-, rfl, hstdout, -⟩ | ⟨-, ⟨error, rfl⟩, -⟩ :=
    cases_of_planned hparsed hrun hshows hloads hplanned Prod.mk.eta.symm
  · exact hstdout
  · exact absurd hzero error.exitCode_ne_zero

end Runs

def lampsDomain : DomainFile where
  facts := ["left", "right"]
  actions := [⟨"light left", [], ["left"], ["left"], []⟩,
    ⟨"light right", [], ["right"], ["right"], []⟩]

def lampsFile : ProblemFile := ⟨[], ⟨["left", "right"], []⟩⟩

theorem resolve_lamps : resolve lampsDomain lampsFile = .ok lamps := by
  have hbuild : ∀ byName : Std.HashMap String Nat,
      ProblemBuilder.build ⟨#["left", "right"], byName,
        #[⟨"light left", [], [0], [0], []⟩, ⟨"light right", [], [1], [1], []⟩], #[], #[0, 1], #[]⟩ =
      .ok lamps := fun _ => Problem.ofParts_self lamps
  simp [resolve, lampsDomain, lampsFile, ProblemBuilder.addFacts, ProblemBuilder.addFact,
    ProblemBuilder.empty, ProblemBuilder.resolveAction, ProblemBuilder.resolveNames,
    ProblemBuilder.lookup, ProblemBuilder.addAction, ProblemBuilder.addGoalTrue, Except.map,
    Except.mapError, bind, Except.bind, pure, Except.pure, Std.HashMap.getElem?_insert, hbuild]

def lampsDomainText : String :=
  "facts: [left, right]\nactions:\n" ++
  "- name: light left\n  pre_neg: [left]\n  add: [left]\n" ++
  "- name: light right\n  pre_neg: [right]\n  add: [right]\n"

def lampsFileText : String := "goal:\n  pos: [left, right]\n"

structure Memory where
  files : List (String × ByteArray)
  stdout : String

def Memory.outlet : Outlet (StateM Memory) where
  times := return {}
  write path bytes memory := (true, { memory with files := (path, bytes) :: memory.files })
  print text memory := (true, { memory with stdout := memory.stdout ++ text })

theorem Memory.shows (report : Option String) : outlet.Shows stdout report where
  times _ := rfl
  write _ _ _ _ := rfl
  print _ _ := ⟨rfl, rfl⟩

def lampsMemory : Memory where
  files := [("domain.yaml", lampsDomainText.toUTF8), ("problem.yaml", lampsFileText.toUTF8)]
  stdout := ""

def lampsFiles : Files := fun path => lampsMemory.files.lookup path

def lampsArguments : List String :=
  ["-o", "domain.yaml", "-f", "problem.yaml", "--parallel", "--backend", "reference", "-t", "0",
    "--report", "report.json"]

def lampsRequest : Request where
  domain := "domain.yaml"
  problem := "problem.yaml"
  timeout := some 0
  maxSteps := none
  config := none
  parallel := true
  backend := some .reference
  report := some "report.json"

def lampsConfig : PlannerConfig :=
  { timeoutSecs := 0, semantics := .parallel, backend := .reference }

def lampsInstallation : Installation Empty Empty := ⟨none, none, .patient, bound64⟩

theorem loads_lamps : lampsRequest.Loads lampsFiles lampsConfig lampsDomain lampsFile lamps where
  config_eq := rfl
  domain_eq := Files.load_eq_ok_iff.mpr ⟨lampsDomainText, by decide +kernel, by decide +kernel⟩
  file_eq := Files.load_eq_ok_iff.mpr ⟨lampsFileText, by decide +kernel, by decide +kernel⟩
  problem_eq := resolve_lamps

theorem decides_lamps : lampsInstallation.Decides lampsConfig := fun _ => rfl

theorem exists_planWithin_lamps :
    ∃ plan stats, planWithin lampsInstallation lampsConfig lamps = .ok ⟨.found plan 1, stats⟩ := by
  obtain ⟨solver, books, hsolver, hbackend, hbooks⟩ := decides_lamps.exists_books
  obtain ⟨plan, stats, next, hplan⟩ := exists_planWith_lamps .reference hbackend hbooks
  refine ⟨plan, stats, ?_⟩
  have hrun : BoundedPlanning.plan lampsInstallation lampsConfig lamps =
      .ok ⟨.found plan 1, stats⟩ := by
    rw [BoundedPlanning.plan, hsolver]
    exact congrArg Prod.fst hplan
  rw [planWithin, if_neg (by decide), hrun]
  rfl

end CommandLine

end BoundedPlanning
