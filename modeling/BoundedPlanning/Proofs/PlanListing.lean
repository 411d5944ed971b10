import BoundedPlanning.CommandLine.Session
import BoundedPlanning.Proofs.Horizons
import BoundedPlanning.Proofs.Loading

namespace BoundedPlanning

def Plan.timedActions (plan : Plan) : List TimedAction :=
  plan.steps.flatMap fun step => step.actions.map fun id => ⟨step.time, id⟩

def CommandLine.printedLine (problem : Problem) (timed : TimedAction) : String :=
  let name := ((problem.action? timed.action).map Action.name).getD "?"
  s!"{twoDigits timed.time}: ({name})\n"

theorem CommandLine.planListing_eq (plan : Plan) (problem : Problem) :
    planListing plan problem = String.join (plan.timedActions.map (printedLine problem)) := by
  rw [planListing, Plan.timedActions, List.map_flatMap]
  simp only [List.map_map]
  rfl

theorem Plan.map_action_timedActions (plan : Plan) :
    plan.timedActions.map TimedAction.action = plan.actions := by
  simp [timedActions, actions, List.map_flatMap, Function.comp_def]

def DomainFile.entry? (domain : DomainFile) (timed : TimedAction) : Option (Nat × NamedAction) :=
  domain.actions[timed.action]?.map fun named => (timed.time, named)

/-- A time in decimal, of at least two digits, and a name on a line. -/
def listingLine (entry : Nat × NamedAction) : List Char :=
  (Nat.toDigits 10 entry.1).leftpad 2 '0' ++ s!": ({entry.2.name})\n".toList

/-- The text has a line for each action of the plan, in execution order.  Taking these actions of
the domain file one after the other leads from the facts of the problem file to its goal. -/
structure Plan.Listed (plan : Plan) (domain : DomainFile) (file : ProblemFile) (text : String)
    (entries : List (Nat × NamedAction)) (final : Set String) : Prop where
  chronological : plan.Chronological
  lists : List.Forall₂ (fun timed entry => domain.entry? timed = some entry) plan.timedActions
    entries
  text_eq : text.toList = entries.flatMap listingLine
  runs : NamedAction.Runs (entries.map Prod.snd) {name | name ∈ file.init} final
  goal_holds : file.goal.Holds final

section Listing

variable {problem : Problem} {domain : DomainFile} {file : ProblemFile} {plan : Plan}

theorem toList_twoDigits (n : Nat) :
    (CommandLine.twoDigits n).toList = (Nat.toDigits 10 n).leftpad 2 '0' := by
  unfold CommandLine.twoDigits
  split
  · rename_i hlt
    have hzero : (toString "0").toList = ['0'] := rfl
    simp [List.leftpad, Nat.toDigits_of_lt_base hlt, hzero]
  · rename_i hge
    have hlength : ¬ (Nat.toDigits 10 n).length ≤ 1 := by
      rw [Nat.length_toDigits_le_iff (by decide) (by decide)]
      omega
    rw [List.leftpad, Nat.sub_eq_zero_of_le (by omega)]
    simp

namespace Problem.StandsFor

theorem exists_named (h : problem.StandsFor domain file) {id : Nat} {action : Action}
    (haction : problem.action? id = some action) :
    ∃ named, domain.actions[id]? = some named ∧ action.StandsFor domain.facts named := by
  obtain ⟨hid, rfl⟩ := List.getElem?_eq_some_iff.mp haction
  have hid' : id < domain.actions.length := h.actions.length_eq ▸ hid
  exact ⟨_, List.getElem?_eq_getElem hid', h.actions.get hid hid'⟩

theorem exists_action (h : problem.StandsFor domain file) {id : Nat} {named : NamedAction}
    (hnamed : domain.actions[id]? = some named) :
    ∃ action, problem.action? id = some action ∧ action.StandsFor domain.facts named := by
  obtain ⟨hid, rfl⟩ := List.getElem?_eq_some_iff.mp hnamed
  have hid' : id < problem.actions.length := h.actions.length_eq ▸ hid
  exact ⟨_, List.getElem?_eq_getElem hid', h.actions.get hid' hid⟩

/-- Known actions of the problem have entries, with the actions for which they stand. -/
theorem exists_entries (h : problem.StandsFor domain file) {timed : List TimedAction}
    {actions : List Action}
    (hactions : List.Forall₂ (fun timed action => problem.action? timed.action = some action)
      timed actions) :
    ∃ entries : List (Nat × NamedAction),
      List.Forall₂ (fun timed entry => domain.entry? timed = some entry) timed entries ∧
      List.Forall₂ (Action.StandsFor domain.facts) actions (entries.map Prod.snd) := by
  induction hactions with
  | nil => exact ⟨[], .nil, .nil⟩
  | @cons first action timed actions haction _ ih =>
      obtain ⟨named, hnamed, hstands⟩ := h.exists_named haction
      obtain ⟨entries, hentries, hrest⟩ := ih
      refine ⟨(first.time, named) :: entries, .cons ?_ hentries, .cons hstands hrest⟩
      rw [DomainFile.entry?, hnamed]
      rfl

/-- What is printed for an action of a plan is the line of its entry. -/
theorem line_eq (h : problem.StandsFor domain file) {timed : TimedAction}
    {entry : Nat × NamedAction} (hentry : domain.entry? timed = some entry) :
    (CommandLine.printedLine problem timed).toList = listingLine entry := by
  obtain ⟨named, hnamed, rfl⟩ := Option.map_eq_some_iff.mp hentry
  obtain ⟨action, haction, hstands⟩ := h.exists_action hnamed
  rw [CommandLine.printedLine, haction, Option.map_some, Option.getD_some, hstands.name_eq,
    listingLine, ← toList_twoDigits]
  simp only [String.toList_append, List.append_assoc]
  rfl

theorem toList_planListing (h : problem.StandsFor domain file)
    {entries : List (Nat × NamedAction)}
    (hentries : List.Forall₂ (fun timed entry => domain.entry? timed = some entry)
      plan.timedActions entries) :
    (CommandLine.planListing plan problem).toList = entries.flatMap listingLine := by
  rw [CommandLine.planListing_eq, String.toList_join, List.flatMap_map]
  generalize plan.timedActions = timed at hentries ⊢
  induction hentries with
  | nil => rfl
  | cons hentry _ ih => rw [List.flatMap_cons, List.flatMap_cons, h.line_eq hentry, ih]

end Problem.StandsFor

/-- Actions that do not interfere within their steps may be taken in the order of the listing. -/
theorem Plan.exists_listed (h : problem.StandsFor domain file) (hplan : plan.Chronological)
    (hachieves : plan.achievesGoal problem = true)
    (hfree : ∀ step ∈ plan.steps, step.actions.Pairwise problem.Independent) :
    ∃ entries final,
      plan.Listed domain file (CommandLine.planListing plan problem) entries final := by
  obtain ⟨final, hfinal, hgoal⟩ := achievesGoal_iff.mp hachieves
  obtain ⟨actions, hknown, htake⟩ := takeAll_of_executeFrom hfinal hfree (perm_actions _)
  rw [← List.flatMap_def, ← Plan.actions, ← map_action_timedActions, List.map_map,
    ← List.forall₂_eq_eq_eq, List.forall₂_map_left_iff, List.forall₂_map_right_iff] at hknown
  obtain ⟨entries, hentries, hstands⟩ := h.exists_entries hknown
  have hsize : problem.init.size = domain.facts.length := by
    rw [problem.init_size, h.facts_eq]
  refine ⟨entries, final.names domain.facts, hplan, hentries, h.toList_planListing hentries, ?_,
    h.goal_holds hgoal⟩
  rw [← h.names_init]
  exact Action.StandsFor.runs hstands hsize htake

end Listing

end BoundedPlanning
