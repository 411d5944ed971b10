import BoundedPlanning.Proofs.SerializedForms
import BoundedPlanning.Proofs.WrittenTimestamps

namespace BoundedPlanning

open JsonValue

def readText? {α : Type} (read? : JsonValue → Option α) (text : String) : Option α :=
  (JsonValue.ofText? text).bind read?

/-- What the texts of a type have to do with its values.  `Dated` is the part of the range that
reading does not make sure of. -/
structure RoundTrips {α : Type} (write : α → JsonValue) (read? : JsonValue → Option α)
    (defaults : List (String × JsonValue)) (InRange Dated : α → Prop) : Prop where
  compact : ∀ value, InRange value → readText? read? (write value).compact = some value
  pretty : ∀ value, InRange value → readText? read? (write value).pretty = some value
  /-- The fields may be reordered, mixed with others, left out if they have their defaults, or be
  given as a list. -/
  forms : ∀ value form text, InRange value → FormOf defaults (write value) form →
    JsonValue.ofText? text = some form → readText? read? text = some value
  /-- A text that is accepted, of whatever form, is written back as texts that are accepted as the
  same value, and so are written back unchanged. -/
  rewritten : ∀ text value, readText? read? text = some value → Dated value →
    readText? read? (write value).compact = some value ∧
      readText? read? (write value).pretty = some value

theorem RoundTrips.of_forms {α : Type} {write : α → JsonValue} {read? : JsonValue → Option α}
    {defaults : List (String × JsonValue)} {InRange Dated : α → Prop}
    (hplain : ∀ value, InRange value → (write value).Plain)
    (hself : ∀ value, FormOf defaults (write value) (write value))
    (hforms : ∀ value form, InRange value → FormOf defaults (write value) form →
      read? form = some value)
    (hinRange : ∀ form value, read? form = some value → Dated value → InRange value) :
    RoundTrips write read? defaults InRange Dated := by
  have hcompact : ∀ value, InRange value → readText? read? (write value).compact = some value := by
    intro value h
    rw [readText?, ofText?_compact (hplain value h)]
    exact hforms value _ h (hself value)
  have hpretty : ∀ value, InRange value → readText? read? (write value).pretty = some value := by
    intro value h
    rw [readText?, ofText?_pretty (hplain value h)]
    exact hforms value _ h (hself value)
  refine ⟨hcompact, hpretty, ?_, ?_⟩
  · intro value form text h hform htext
    rw [readText?, htext]
    exact hforms value form h hform
  · intro text value htext hdated
    obtain ⟨form, -, hread⟩ := Option.bind_eq_some_iff.mp htext
    have h := hinRange form value hread hdated
    exact ⟨hcompact value h, hpretty value h⟩

theorem Timestamp.ofJson?_toJson {stamp : Timestamp} (h : 0 ≤ stamp.date.year)
    (h' : stamp.date.year ≤ 9999) : ofJson? stamp.toJson = some stamp := by
  rw [toJson, ofJson?, JsonValue.text, text?, Option.bind_some, ofText?_text h h']

namespace PlanReport

def Dated (report : PlanReport) : Prop :=
  0 ≤ report.generatedAt.date.year ∧ report.generatedAt.date.year ≤ 9999

structure InRange (report : PlanReport) : Prop where
  horizon : ∀ horizon ∈ report.horizon, horizon < bound32
  steps : ∀ step ∈ report.steps, step.InRange
  plan : ∀ plan ∈ report.plan, plan.InRange
  horizons : ∀ record ∈ report.horizons, record.InRange
  totalTimeMs : report.totalTimeMs < bound64
  dated : report.Dated

def defaults : List (String × JsonValue) := [("horizon", .null), ("plan", .null)]

variable {report : PlanReport} {value form : JsonValue}

theorem optionalNumber : CodecLaws (.optional .natural) (optional? nat32?)
    (fun n? => ∀ n ∈ n?, n < bound32) :=
  CodecLaws.nat32.optional nofun

theorem optionalPlan : CodecLaws (.optional Plan.toJson) (optional? Plan.ofJson?)
    (fun plan? => ∀ plan ∈ plan?, plan.InRange) :=
  Plan.codecLaws.optional nofun

theorem plain_toJson (h : report.InRange) : report.toJson.Plain := by
  apply plain_record
  simp only [List.forall_mem_cons]
  exact ⟨CodecLaws.text.plain _ trivial, CodecLaws.text.plain _ trivial,
    optionalNumber.plain _ h.horizon, ReportStep.codecLaws.list.plain _ h.steps,
    optionalPlan.plain _ h.plan, CodecLaws.bool.plain _ trivial,
    CodecLaws.semantics.plain _ trivial, CodecLaws.backend.plain _ trivial,
    HorizonRecord.codecLaws.list.plain _ h.horizons, CodecLaws.nat64.plain _ h.totalTimeMs,
    .string _, by simp⟩

theorem ofJson?_of_formOf (h : report.InRange) (hform : FormOf defaults report.toJson form) :
    ofJson? form = some report := by
  obtain ⟨given, hgiven, hgives⟩ := JsonFields.exists_of_formOf hform (by simp)
  have houtcome := CodecLaws.text.required_eq trivial (hgives 0 _ rfl) (by decide)
  have hmessage := CodecLaws.text.required_eq trivial (hgives 1 _ rfl) (by decide)
  have hhorizon := optionalNumber.nullable_eq h.horizon (hgives 2 _ rfl) (by simp [defaults])
  have hsteps := ReportStep.codecLaws.list.required_eq h.steps (hgives 3 _ rfl) (by decide)
  have hplan := optionalPlan.nullable_eq h.plan (hgives 4 _ rfl) (by simp [defaults])
  have hvalidated := CodecLaws.bool.required_eq trivial (hgives 5 _ rfl) (by decide)
  have hsemantics := CodecLaws.semantics.required_eq trivial (hgives 6 _ rfl) (by decide)
  have hbackend := CodecLaws.backend.required_eq trivial (hgives 7 _ rfl) (by decide)
  have hhorizons := HorizonRecord.codecLaws.list.required_eq h.horizons (hgives 8 _ rfl) (by decide)
  have htotalTimeMs := CodecLaws.nat64.required_eq h.totalTimeMs (hgives 9 _ rfl) (by decide)
  have hgeneratedAt : given.required 10 Timestamp.ofJson? = some report.generatedAt :=
    ((hgives 10 _ rfl).required_eq_read (by decide)).trans
      (Timestamp.ofJson?_toJson h.dated.1 h.dated.2)
  simp only [List.map_cons, List.map_nil] at hgiven
  simp only [ofJson?, hgiven, houtcome, hmessage, hhorizon, hsteps, hplan, hvalidated, hsemantics,
    hbackend, hhorizons, htotalTimeMs, hgeneratedAt, Option.bind_eq_bind, Option.bind_some]
  rfl

theorem inRange_of_ofJson? (h : ofJson? value = some report) (hdated : report.Dated) :
    report.InRange := by
  simp only [ofJson?, Option.bind_eq_bind, Option.bind_eq_some_iff] at h
  obtain ⟨given, -, outcome, -, message, -, horizon, hhorizon, steps, hsteps, plan, hplan,
    validated, -, semantics, -, backend, -, horizons, hhorizons, totalTimeMs, htotalTimeMs,
    generatedAt, -, h⟩ := h
  cases h
  exact ⟨optionalNumber.inRange_nullable hhorizon (by simp),
    ReportStep.codecLaws.list.inRange_required hsteps,
    optionalPlan.inRange_nullable hplan (by simp),
    HorizonRecord.codecLaws.list.inRange_required hhorizons,
    CodecLaws.nat64.inRange_required htotalTimeMs, hdated⟩

end PlanReport

/-- Actions, goals, states, plans, settings, limits and reports are read back from their texts, and
a text that is accepted as one of them is written back as a text with the same meaning. -/
theorem serialized_forms_round_trip :
    RoundTrips Action.toJson Action.ofJson? Action.defaults Action.InRange (fun _ => True) ∧
    RoundTrips Goal.toJson Goal.ofJson? Goal.defaults Goal.InRange (fun _ => True) ∧
    RoundTrips State.toJson State.ofJson? [] (fun _ => True) (fun _ => True) ∧
    RoundTrips Plan.toJson Plan.ofJson? [] Plan.InRange (fun _ => True) ∧
    RoundTrips PlannerConfig.toJson PlannerConfig.ofJson? PlannerConfig.defaults
      PlannerConfig.InRange (fun _ => True) ∧
    RoundTrips SolverLimits.toJson SolverLimits.ofJson? SolverLimits.defaults
      SolverLimits.InRange (fun _ => True) ∧
    RoundTrips PlanReport.toJson PlanReport.ofJson? PlanReport.defaults PlanReport.InRange
      PlanReport.Dated ∧
    ∀ report : PlanReport, report.InRange →
      readText? PlanReport.ofJson? report.text = some report := by
  have hreports : RoundTrips PlanReport.toJson PlanReport.ofJson? PlanReport.defaults
      PlanReport.InRange PlanReport.Dated :=
    .of_forms (fun _ => PlanReport.plain_toJson) (fun _ => formOf_record _ _)
      (fun _ _ => PlanReport.ofJson?_of_formOf) (fun _ _ => PlanReport.inRange_of_ofJson?)
  refine ⟨?action, ?goal, ?state, ?plan, ?config, ?limits, hreports, hreports.pretty⟩
  case action =>
    exact .of_forms (fun _ => Action.plain_toJson) (fun _ => formOf_record _ _)
      (fun _ _ => Action.ofJson?_of_formOf) (fun _ _ h _ => Action.inRange_of_ofJson? h)
  case goal =>
    exact .of_forms (fun _ => Goal.plain_toJson) (fun _ => formOf_record _ _)
      (fun _ _ => Goal.ofJson?_of_formOf) (fun _ _ h _ => Goal.inRange_of_ofJson? h)
  case state =>
    exact .of_forms (fun state _ => state.plain_toJson) (fun _ => formOf_record _ _)
      (fun _ _ _ => State.ofJson?_of_formOf) (fun _ _ _ _ => trivial)
  case plan =>
    exact .of_forms (fun _ => Plan.plain_toJson) (fun _ => formOf_record _ _)
      (fun _ _ => Plan.ofJson?_of_formOf) (fun _ _ h _ => Plan.inRange_of_ofJson? h)
  case config =>
    exact .of_forms (fun _ => PlannerConfig.plain_toJson) (fun _ => formOf_record _ _)
      (fun _ _ => PlannerConfig.ofJson?_of_formOf)
      (fun _ _ h _ => PlannerConfig.inRange_of_ofJson? h)
  case limits =>
    exact .of_forms (fun _ => SolverLimits.plain_toJson) (fun _ => formOf_record _ _)
      (fun _ _ => SolverLimits.ofJson?_of_formOf)
      (fun _ _ h _ => SolverLimits.inRange_of_ofJson? h)

def leapSecondReport : PlanReport where
  outcome := "plan-found"
  message := "a \"plan\" of\n1 step \x01 \\ ∎"
  horizon := some 1
  steps := [⟨0, ["drive a b", ""]⟩]
  plan := some ⟨[⟨0, [4294967295]⟩]⟩
  validated := true
  semantics := .parallel
  backend := .reference
  horizons := [⟨1, 2, 18446744073709551615, .timedOut, 7⟩]
  totalTimeMs := 12
  generatedAt := ⟨⟨2016, 12, 31, by decide, by decide⟩,
    ⟨23, 59, 59, 1500000000, by decide, by decide, by decide, by decide⟩⟩

def looseActionText : String :=
  "\x7b\"del\": [4], \"cost\": \x7b\"x\": 1.5\x7d, \"name\": \"go\", \"add\": [2, 1], \"pre\": []\x7d"

def looseAction : Action := ⟨"go", [], [], [2, 1], [4]⟩

theorem serialized_forms_round_trip_leapSecond :
    leapSecondReport.InRange ∧
    readText? PlanReport.ofJson? leapSecondReport.text = some leapSecondReport ∧
    readText? Action.ofJson? looseActionText = some looseAction ∧
    readText? Action.ofJson? looseAction.toJson.compact = some looseAction := by
  have hreport : leapSecondReport.InRange :=
    { horizon := by simp [leapSecondReport, bound32]
      steps := by simp [leapSecondReport, ReportStep.InRange, bound32]
      plan := by
        rintro plan ⟨⟩ step hstep
        obtain rfl := List.mem_singleton.mp hstep
        exact ⟨by decide, by decide⟩
      horizons := by
        intro record hrecord
        obtain rfl := List.mem_singleton.mp hrecord
        exact ⟨by decide, by decide, by decide, by decide⟩
      totalTimeMs := by decide
      dated := ⟨by decide, by decide⟩ }
  have htext : readText? Action.ofJson? looseActionText = some looseAction := by decide +kernel
  obtain ⟨hactions, -, -, -, -, -, -, hreports⟩ := serialized_forms_round_trip
  exact ⟨hreport, hreports leapSecondReport hreport, htext, (hactions.rewritten _ _ htext trivial).1⟩

end BoundedPlanning
