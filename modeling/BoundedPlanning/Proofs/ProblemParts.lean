import BoundedPlanning.Planner.Loop
import BoundedPlanning.Proofs.Except
import BoundedPlanning.Proofs.FactSets
import BoundedPlanning.Proofs.Layout

namespace BoundedPlanning

/-- All facts that are mentioned are declared, the initial state covers the declared facts, and no
fact is to be both true and false. -/
structure ValidParts (facts : List String) (actions : List Action) (init : State) (goal : Goal) :
    Prop where
  actions_declared : ∀ action ∈ actions, ∀ fact ∈ action.facts, fact < facts.length
  init_size : init.size = facts.length
  goal_declared : ∀ fact ∈ goal.facts, fact < facts.length
  goal_consistent : ∀ fact ∈ goal.pos, fact ∉ goal.neg

/-- The offence that comes first: actions before the initial state, it before the goal, and in the
goal undeclared facts before contradictions.  The lists of an action are read as they were written,
those of the goal from the smallest fact on. -/
inductive FirstOffence (facts : List String) (actions : List Action) (init : State) (goal : Goal) :
    ProblemError → Prop
  | action {before after : List Action} {action : Action} {earlier later : List Nat} {fact : Nat}
      (hactions : actions = before ++ action :: after)
      (hbefore : ∀ other ∈ before, ∀ fact ∈ other.facts, fact < facts.length)
      (hfacts : action.pre ++ action.preNeg ++ action.add ++ action.del = earlier ++ fact :: later)
      (hearlier : ∀ other ∈ earlier, other < facts.length) (hfact : facts.length ≤ fact) :
      FirstOffence facts actions init goal (.factOutOfRange action.name fact facts.length)
  | initSize (hactions : ∀ action ∈ actions, ∀ fact ∈ action.facts, fact < facts.length)
      (hinit : init.size ≠ facts.length) :
      FirstOffence facts actions init goal (.initSizeMismatch facts.length init.size)
  | goalPos {fact : Nat}
      (hactions : ∀ action ∈ actions, ∀ fact ∈ action.facts, fact < facts.length)
      (hinit : init.size = facts.length)
      (hleast : IsLeast {fact | fact ∈ goal.pos ∧ facts.length ≤ fact} fact) :
      FirstOffence facts actions init goal (.stateOutOfRange .goal fact facts.length)
  | goalNeg {fact : Nat}
      (hactions : ∀ action ∈ actions, ∀ fact ∈ action.facts, fact < facts.length)
      (hinit : init.size = facts.length) (hpos : ∀ fact ∈ goal.pos, fact < facts.length)
      (hleast : IsLeast {fact | fact ∈ goal.neg ∧ facts.length ≤ fact} fact) :
      FirstOffence facts actions init goal (.stateOutOfRange .goal fact facts.length)
  | contradiction {fact : Nat}
      (hactions : ∀ action ∈ actions, ∀ fact ∈ action.facts, fact < facts.length)
      (hinit : init.size = facts.length) (hgoal : ∀ fact ∈ goal.facts, fact < facts.length)
      (hleast : IsLeast {fact | fact ∈ goal.pos ∧ fact ∈ goal.neg} fact) :
      FirstOffence facts actions init goal (.inconsistentGoal fact)

section Offences

variable {facts : List String} {actions : List Action} {init : State} {goal : Goal}
  {error : ProblemError}

/-- The offences one after the other, as far as there are any. -/
def offence? (facts : List String) (actions : List Action) (init : State) (goal : Goal) :
    Option ProblemError :=
  (actions.findSome? (Problem.undeclaredFact? facts.length)).or <|
    (if init.size = facts.length then none
      else some (.initSizeMismatch facts.length init.size)).or <|
    ((goal.normalize.facts.find? fun fact => decide (facts.length ≤ fact)).map
      fun fact => .stateOutOfRange .goal fact facts.length).or <|
    (goal.normalize.pos.find? fun fact => goal.normalize.neg.contains fact).map .inconsistentGoal

theorem error?_ofParts :
    error? (Problem.ofParts facts actions init goal) = offence? facts actions init goal := by
  unfold Problem.ofParts
  split
  · rename_i hactions
    simp only [offence?, hactions, Option.some_or, error?]
  · rename_i hactions
    split
    · rename_i hinit
      split
      · rename_i fact hgoal
        simp only [offence?, hactions, if_pos hinit, hgoal, Option.none_or, Option.map_some,
          Option.some_or, error?]
      · rename_i hgoal
        split
        · rename_i fact hboth
          simp only [offence?, hactions, if_pos hinit, hgoal, hboth, Option.none_or,
            Option.map_none, Option.map_some, error?]
        · rename_i hboth
          simp only [offence?, hactions, if_pos hinit, hgoal, hboth, Option.none_or,
            Option.map_none, error?]
    · rename_i hinit
      simp only [offence?, hactions, if_neg hinit, Option.none_or, Option.some_or, error?]

theorem undeclaredFact?_eq_some_iff {count : Nat} {action : Action} :
    Problem.undeclaredFact? count action = some error ↔
      ∃ earlier fact later, action.facts = earlier ++ fact :: later ∧
        (∀ other ∈ earlier, other < count) ∧ count ≤ fact ∧
        .factOutOfRange action.name fact count = error := by
  simp only [Problem.undeclaredFact?, Option.map_eq_some_iff, List.find?_eq_some_iff_append,
    decide_eq_true_eq, Bool.not_eq_true', decide_eq_false_iff_not, Nat.not_le]
  constructor
  · rintro ⟨fact, ⟨hfact, earlier, later, hsplit, hearlier⟩, herror⟩
    exact ⟨earlier, fact, later, hsplit, hearlier, hfact, herror⟩
  · rintro ⟨earlier, fact, later, hsplit, hearlier, hfact, herror⟩
    exact ⟨fact, ⟨hfact, earlier, later, hsplit, hearlier⟩, herror⟩

theorem findSome?_undeclaredFact?_eq_none_iff {count : Nat} :
    actions.findSome? (Problem.undeclaredFact? count) = none ↔
      ∀ action ∈ actions, ∀ fact ∈ action.facts, fact < count := by
  simp only [List.findSome?_eq_none_iff, Problem.undeclaredFact?_eq_none_iff]

theorem find?_goal_eq_none_iff {count : Nat} :
    goal.normalize.facts.find? (fun fact => decide (count ≤ fact)) = none ↔
      ∀ fact ∈ goal.facts, fact < count := by
  simp only [List.find?_eq_none, goal.sameFacts_normalize.mem_facts_iff, decide_eq_true_eq,
    Nat.not_le]

theorem find?_goal_eq_some_iff {count fact : Nat} :
    goal.normalize.facts.find? (fun fact => decide (count ≤ fact)) = some fact ↔
      IsLeast {fact | fact ∈ goal.pos ∧ count ≤ fact} fact ∨
        (∀ fact ∈ goal.pos, fact < count) ∧
          IsLeast {fact | fact ∈ goal.neg ∧ count ≤ fact} fact := by
  rw [Goal.facts, List.find?_append, Option.or_eq_some_iff, Goal.normalize]
  simp only [find?_ascending_eq_some_iff, List.find?_eq_none, mem_ascending, decide_eq_true_eq,
    Nat.not_le]

theorem find?_contradiction_eq_some_iff {fact : Nat} :
    goal.normalize.pos.find? (fun fact => goal.normalize.neg.contains fact) = some fact ↔
      IsLeast {fact | fact ∈ goal.pos ∧ fact ∈ goal.neg} fact := by
  simp only [Goal.normalize, find?_ascending_eq_some_iff, List.contains_iff_mem, mem_ascending]

theorem offence?_eq_some_iff :
    offence? facts actions init goal = some error ↔ FirstOffence facts actions init goal error := by
  simp only [offence?, Option.or_eq_some_iff, Option.map_eq_some_iff, Option.map_eq_none_iff,
    findSome?_undeclaredFact?_eq_none_iff, find?_goal_eq_none_iff, find?_goal_eq_some_iff,
    find?_contradiction_eq_some_iff]
  constructor
  · rintro (haction | ⟨hactions, hsize | ⟨hinit, hundeclared | ⟨hgoal, fact, hleast, rfl⟩⟩⟩)
    · obtain ⟨before, action, after, rfl, hfound, hbefore⟩ := List.findSome?_eq_some_iff.mp haction
      obtain ⟨earlier, fact, later, hsplit, hearlier, hfact, rfl⟩ :=
        undeclaredFact?_eq_some_iff.mp hfound
      refine .action rfl (fun other hother => ?_) hsplit hearlier hfact
      exact Problem.undeclaredFact?_eq_none_iff.mp (hbefore other hother)
    · split at hsize
      · cases hsize
      · rename_i hinit
        cases hsize
        exact .initSize hactions hinit
    · have hsize : init.size = facts.length := by simpa using hinit
      obtain ⟨fact, hleast | ⟨hpos, hleast⟩, rfl⟩ := hundeclared
      · exact .goalPos hactions hsize hleast
      · exact .goalNeg hactions hsize hpos hleast
    · exact .contradiction hactions (by simpa using hinit) hgoal hleast
  · intro h
    cases h with
    | @action before after action earlier later fact hactions hbefore hfacts hearlier hfact =>
        refine Or.inl (List.findSome?_eq_some_iff.mpr ⟨before, action, after, hactions, ?_, ?_⟩)
        · exact undeclaredFact?_eq_some_iff.mpr ⟨earlier, fact, later, hfacts, hearlier, hfact, rfl⟩
        · exact fun other hother => Problem.undeclaredFact?_eq_none_iff.mpr (hbefore other hother)
    | initSize hactions hinit => exact Or.inr ⟨hactions, Or.inl (if_neg hinit)⟩
    | goalPos hactions hinit hleast =>
        exact Or.inr ⟨hactions, Or.inr ⟨if_pos hinit, Or.inl ⟨_, Or.inl hleast, rfl⟩⟩⟩
    | goalNeg hactions hinit hpos hleast =>
        exact Or.inr ⟨hactions, Or.inr ⟨if_pos hinit, Or.inl ⟨_, Or.inr ⟨hpos, hleast⟩, rfl⟩⟩⟩
    | contradiction hactions hinit hgoal hleast =>
        exact Or.inr ⟨hactions, Or.inr ⟨if_pos hinit, Or.inr ⟨hgoal, _, hleast, rfl⟩⟩⟩

theorem ofParts_eq_error_iff :
    Problem.ofParts facts actions init goal = .error error ↔
      FirstOffence facts actions init goal error := by
  rw [← error?_eq_some_iff, error?_ofParts, offence?_eq_some_iff]

theorem offence?_eq_none_iff :
    offence? facts actions init goal = none ↔ ValidParts facts actions init goal := by
  simp only [offence?, Option.or_eq_none_iff, Option.map_eq_none_iff,
    findSome?_undeclaredFact?_eq_none_iff, find?_goal_eq_none_iff]
  constructor
  · rintro ⟨hactions, hinit, hgoal, hconsistent⟩
    refine ⟨hactions, by simpa using hinit, hgoal, ?_⟩
    simpa [Goal.normalize] using hconsistent
  · rintro ⟨hactions, hinit, hgoal, hconsistent⟩
    refine ⟨hactions, if_pos hinit, hgoal, ?_⟩
    simpa [Goal.normalize] using hconsistent

/-- Of declared facts and a state for them, only a contradiction in the goal is an offence. -/
theorem offence?_of_declared
    (hactions : ∀ action ∈ actions, ∀ fact ∈ action.facts, fact < facts.length)
    (hinit : init.size = facts.length) (hgoal : ∀ fact ∈ goal.facts, fact < facts.length) :
    offence? facts actions init goal =
      (goal.normalize.pos.find? fun fact => goal.normalize.neg.contains fact).map
        .inconsistentGoal := by
  rw [offence?, findSome?_undeclaredFact?_eq_none_iff.mpr hactions, if_pos hinit,
    find?_goal_eq_none_iff.mpr hgoal, Option.map_none, Option.none_or, Option.none_or,
    Option.none_or]

end Offences

theorem Action.normalize_eq_self {action : Action} (h : action.Normal) :
    action.normalize = action := by
  obtain ⟨hpre, hpreNeg, hadd, hdel⟩ := h
  rw [normalize, ascending_eq_self hpre, ascending_eq_self hpreNeg, ascending_eq_self hadd,
    ascending_eq_self hdel]

theorem map_normalize_eq {actions others : List Action}
    (h : List.Forall₂ Action.SameFacts others actions) :
    others.map Action.normalize = actions.map Action.normalize := by
  induction h with
  | nil => rfl
  | cons hfirst _ ih => rw [List.map_cons, List.map_cons, hfirst.normalize_eq, ih]

theorem validParts_normalize_iff {facts : List String} {actions : List Action} {init : State}
    {goal : Goal} :
    ValidParts facts (actions.map Action.normalize) init goal.normalize ↔
      ValidParts facts actions init goal := by
  constructor
  · rintro ⟨hactions, hinit, hgoal, hconsistent⟩
    refine ⟨by simpa using hactions, hinit, ?_, by simpa [Goal.normalize] using hconsistent⟩
    simpa only [goal.sameFacts_normalize.mem_facts_iff] using hgoal
  · rintro ⟨hactions, hinit, hgoal, hconsistent⟩
    refine ⟨by simpa using hactions, hinit, ?_, by simpa [Goal.normalize] using hconsistent⟩
    simpa only [goal.sameFacts_normalize.mem_facts_iff] using hgoal

/-- The problem has the parts as they were written, but for order and repetition in the lists of
facts, and its actions and its goal do what the written ones do. -/
structure Problem.Normalizes (problem : Problem) (facts : List String) (actions : List Action)
    (init : State) (goal : Goal) : Prop where
  facts_eq : problem.facts = facts
  init_eq : problem.init = init
  sameActions : List.Forall₂ (fun action written => action.Normal ∧ action.SameFacts written)
    problem.actions actions
  sameGoal : problem.goal.SameFacts goal
  pos_ascending : problem.goal.pos.Pairwise (· < ·)
  neg_ascending : problem.goal.neg.Pairwise (· < ·)
  isApplicable_eq : ∀ state, problem.actions.map (fun action => action.isApplicable state) =
    actions.map fun action => action.isApplicable state
  apply_eq : ∀ state, problem.actions.map (fun action => action.apply state) =
    actions.map fun action => action.apply state
  adds_eq : ∀ fact, problem.actions.map (fun action => action.adds fact) =
    actions.map fun action => action.adds fact
  deletes_eq : ∀ fact, problem.actions.map (fun action => action.deletes fact) =
    actions.map fun action => action.deletes fact
  interferesWith_eq :
    problem.actions.map (fun action => problem.actions.map action.interferesWith) =
      actions.map fun action => actions.map action.interferesWith
  isSatisfiedBy_eq : ∀ state, problem.goal.isSatisfiedBy state = goal.isSatisfiedBy state

namespace Problem

variable {facts : List String} {actions : List Action} {init : State} {goal : Goal}
  {problem : Problem}

theorem of_ofParts_eq_ok (h : ofParts facts actions init goal = .ok problem) :
    problem.facts = facts ∧ problem.actions = actions.map Action.normalize ∧ problem.init = init ∧
      problem.goal = goal.normalize := by
  unfold ofParts at h
  split at h
  · cases h
  · split at h
    · split at h
      · cases h
      · split at h
        · cases h
        · cases h
          exact ⟨rfl, rfl, rfl, rfl⟩
    · cases h

theorem eq_of_parts {first second : Problem} (hfacts : first.facts = second.facts)
    (hactions : first.actions = second.actions) (hinit : first.init = second.init)
    (hgoal : first.goal = second.goal) : first = second := by
  cases first
  cases second
  cases hfacts
  cases hactions
  cases hinit
  cases hgoal
  rfl

theorem exists_ofParts_eq_ok_iff :
    (∃ problem, ofParts facts actions init goal = .ok problem) ↔
      ValidParts facts actions init goal := by
  rw [← error?_eq_none_iff, error?_ofParts, offence?_eq_none_iff]

theorem ofParts_eq_ok_iff :
    ofParts facts actions init goal = .ok problem ↔
      ValidParts facts actions init goal ∧ problem.facts = facts ∧
        problem.actions = actions.map Action.normalize ∧ problem.init = init ∧
        problem.goal = goal.normalize := by
  constructor
  · intro h
    exact ⟨exists_ofParts_eq_ok_iff.mp ⟨problem, h⟩, of_ofParts_eq_ok h⟩
  · rintro ⟨hvalid, hfacts, hactions, hinit, hgoal⟩
    obtain ⟨made, hmade⟩ := exists_ofParts_eq_ok_iff.mpr hvalid
    obtain ⟨hmadeFacts, hmadeActions, hmadeInit, hmadeGoal⟩ := of_ofParts_eq_ok hmade
    rw [hmade]
    apply congrArg
    exact eq_of_parts (hmadeFacts.trans hfacts.symm) (hmadeActions.trans hactions.symm)
      (hmadeInit.trans hinit.symm) (hmadeGoal.trans hgoal.symm)

theorem normalize_goal (problem : Problem) : problem.goal.normalize = problem.goal := by
  rw [Goal.normalize, ascending_eq_self problem.goal_pos_ascending,
    ascending_eq_self problem.goal_neg_ascending]

theorem ofParts_self (problem : Problem) :
    ofParts problem.facts problem.actions problem.init problem.goal = .ok problem := by
  rw [ofParts_eq_ok_iff, normalize_goal]
  refine ⟨⟨problem.actions_inRange, problem.init_size, problem.goal_inRange,
    problem.goal_consistent⟩, rfl, ?_, rfl, rfl⟩
  calc
    _ = problem.actions.map id := (List.map_id _).symm
    _ = problem.actions.map Action.normalize := List.map_congr_left fun action haction =>
      (Action.normalize_eq_self (problem.actions_normal action haction)).symm

/-- Order and repetition in the lists of facts do not matter for the problem. -/
theorem ofParts_eq_ok_congr {others : List Action} {wanted : Goal}
    (hactions : List.Forall₂ Action.SameFacts others actions) (hgoal : wanted.SameFacts goal) :
    ofParts facts others init wanted = .ok problem ↔
      ofParts facts actions init goal = .ok problem := by
  rw [ofParts_eq_ok_iff, ofParts_eq_ok_iff, ← validParts_normalize_iff, map_normalize_eq hactions,
    hgoal.normalize_eq, validParts_normalize_iff]

/-- What is the same for every action and its normal form is the same for the problem. -/
theorem map_actions_eq_of_ofParts {β : Type} (h : ofParts facts actions init goal = .ok problem)
    {f g : Action → β} (hfg : ∀ action, f action.normalize = g action) :
    problem.actions.map f = actions.map g := by
  obtain ⟨-, hactions, -, -⟩ := of_ofParts_eq_ok h
  rw [hactions, List.map_map]
  exact List.map_congr_left fun action _ => hfg action

theorem normalizes_of_ofParts (h : ofParts facts actions init goal = .ok problem) :
    problem.Normalizes facts actions init goal := by
  obtain ⟨hfacts, hactions, hinit, hgoal⟩ := of_ofParts_eq_ok h
  have hsameGoal : problem.goal.SameFacts goal := by
    rw [hgoal]
    exact goal.sameFacts_normalize
  refine ⟨hfacts, hinit, ?_, hsameGoal, problem.goal_pos_ascending, problem.goal_neg_ascending,
    fun state => ?_, fun state => ?_, fun fact => ?_, fun fact => ?_, ?_,
    hsameGoal.isSatisfiedBy_eq⟩
  · rw [hactions, List.forall₂_map_left_iff, List.forall₂_same]
    exact fun action _ => ⟨action.normal_normalize, action.sameFacts_normalize⟩
  · exact map_actions_eq_of_ofParts h fun action => action.sameFacts_normalize.isApplicable_eq state
  · exact map_actions_eq_of_ofParts h fun action => action.sameFacts_normalize.apply_eq state
  · exact map_actions_eq_of_ofParts h fun action => action.sameFacts_normalize.adds_eq fact
  · exact map_actions_eq_of_ofParts h fun action => action.sameFacts_normalize.deletes_eq fact
  · apply map_actions_eq_of_ofParts h
    intro action
    apply map_actions_eq_of_ofParts h
    intro other
    exact action.sameFacts_normalize.interferesWith_eq other.sameFacts_normalize

end Problem

/-- Parts make up a problem exactly if they are valid, and otherwise the first offence is reported.
The problem normalizes them and means what they mean; parts that differ from them in nothing but
order and repetition in the lists of facts make up the same problem, with the same clauses and the
same plans. -/
theorem ofParts_normalizes_valid_parts (facts : List String) (actions : List Action) (init : State)
    (goal : Goal) :
    ((∃ problem, Problem.ofParts facts actions init goal = .ok problem) ↔
      ValidParts facts actions init goal) ∧
    (∀ error, Problem.ofParts facts actions init goal = .error error ↔
      FirstOffence facts actions init goal error) ∧
    (∀ problem, Problem.ofParts facts actions init goal = .ok problem →
      problem.Normalizes facts actions init goal) ∧
    ∀ others wanted, List.Forall₂ Action.SameFacts others actions → wanted.SameFacts goal →
      (∀ problem, Problem.ofParts facts others init wanted = .ok problem ↔
        Problem.ofParts facts actions init goal = .ok problem) ∧
      ∀ problem other, Problem.ofParts facts actions init goal = .ok problem →
        Problem.ofParts facts others init wanted = .ok other →
        (∀ semantics last, (encodeThrough other semantics last).map Prod.fst =
          (encodeThrough problem semantics last).map Prod.fst) ∧
        ∀ (ε ζ : Type) (installation : Installation ε ζ) config,
          plan installation config other = plan installation config problem := by
  refine ⟨Problem.exists_ofParts_eq_ok_iff, fun error => ?_, fun problem =>
    Problem.normalizes_of_ofParts, fun others wanted hactions hgoal => ?_⟩
  · exact ofParts_eq_error_iff
  · have hsame := fun problem =>
      @Problem.ofParts_eq_ok_congr facts actions init goal problem others wanted hactions hgoal
    refine ⟨hsame, fun problem other hproblem hother => ?_⟩
    have hequal : other = problem :=
      Except.ok.inj (hother.symm.trans ((hsame problem).mpr hproblem))
    rw [hequal]
    exact ⟨fun _ _ => rfl, fun _ _ _ _ => rfl⟩

theorem ofParts_normalizes_valid_parts_repeats :
    ∃ problem,
      Problem.ofParts ["p", "q"] [⟨"a", [1, 0, 1], [], [1], [1, 0, 1]⟩] ⟨#[true, true]⟩
        ⟨[1, 1], [0]⟩ = .ok problem ∧
      Problem.ofParts ["p", "q"] [⟨"a", [0, 1], [], [1], [0, 1]⟩] ⟨#[true, true]⟩ ⟨[1], [0]⟩ =
        .ok problem ∧
      problem.Normalizes ["p", "q"] [⟨"a", [1, 0, 1], [], [1], [1, 0, 1]⟩] ⟨#[true, true]⟩
        ⟨[1, 1], [0]⟩ ∧
      Problem.ofParts ["p", "q"] [⟨"a", [1], [0], [3, 2], [4]⟩] ⟨#[]⟩ ⟨[7], [7]⟩ =
        .error (.factOutOfRange "a" 3 2) := by
  obtain ⟨hvalid, -, hnormalizes, hsame⟩ := ofParts_normalizes_valid_parts ["p", "q"]
    [⟨"a", [1, 0, 1], [], [1], [1, 0, 1]⟩] ⟨#[true, true]⟩ ⟨[1, 1], [0]⟩
  obtain ⟨problem, hproblem⟩ := hvalid.mpr ⟨by decide, rfl, by decide, by decide⟩
  refine ⟨problem, hproblem, ((hsame _ _ ?_ ?_).1 problem).mpr hproblem,
    hnormalizes problem hproblem, ((ofParts_normalizes_valid_parts _ _ _ _).2.1 _).mpr ?_⟩
  · have hmem : ∀ fact : Nat, fact ∈ [0, 1] ↔ fact ∈ [1, 0, 1] := by
      intro fact
      simp
      omega
    exact .cons ⟨rfl, hmem, fun _ => Iff.rfl, fun _ => Iff.rfl, hmem⟩ .nil
  · exact ⟨fun fact => by simp, fun _ => Iff.rfl⟩
  · exact @FirstOffence.action _ _ _ _ [] [] _ [1, 0] [2, 4] 3 rfl (by simp) rfl (by decide)
      (by decide)

end BoundedPlanning
