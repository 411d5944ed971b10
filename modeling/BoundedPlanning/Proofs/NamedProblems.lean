import BoundedPlanning.Files.Problem
import BoundedPlanning.Proofs.Serialization
import Mathlib.Data.Set.Basic

/-!
Problems by the names of their facts.  A state is seen as the set of the names that hold.  A problem
stands for a domain file and a problem file when its numbers stand for their names; taking its
actions is then taking the actions of the domain file.
-/

namespace BoundedPlanning

namespace NamedAction

def Enabled (action : NamedAction) (state : Set String) : Prop :=
  (∀ name ∈ action.pre, name ∈ state) ∧ ∀ name ∈ action.preNeg, name ∉ state

/-- The names that hold after the action; one that it both deletes and adds does. -/
def result (action : NamedAction) (state : Set String) : Set String :=
  {name | name ∈ action.add ∨ name ∈ state ∧ name ∉ action.del}

/-- The actions, each enabled at its turn, lead from the first state to the second. -/
inductive Runs : List NamedAction → Set String → Set String → Prop
  | nil (state : Set String) : Runs [] state state
  | cons {action : NamedAction} {rest : List NamedAction} {state final : Set String}
      (henabled : action.Enabled state) (hrest : Runs rest (action.result state) final) :
      Runs (action :: rest) state final

end NamedAction

def NamedGoal.Holds (goal : NamedGoal) (state : Set String) : Prop :=
  (∀ name ∈ goal.pos, name ∈ state) ∧ ∀ name ∈ goal.neg, name ∉ state

/-- The numbers are those of the names, all of which are declared. -/
structure Denotes (facts : List String) (ids : List Nat) (names : List String) : Prop where
  mem_iff : ∀ id, id ∈ ids ↔ ∃ name ∈ names, facts[id]? = some name
  declared : ∀ name ∈ names, ∃ id : Nat, facts[id]? = some name

def State.names (facts : List String) (state : State) : Set String :=
  {name | ∃ id : Nat, facts[id]? = some name ∧ state.holds id = true}

namespace Denotes

variable {facts names : List String} {ids : List Nat} {state : State}

theorem mem_iff_of_get (h : Denotes facts ids names) {id : Nat} {name : String}
    (hname : facts[id]? = some name) : id ∈ ids ↔ name ∈ names := by
  rw [h.mem_iff, hname]
  simp

theorem forall_mem_names (h : Denotes facts ids names)
    (hholds : ∀ id ∈ ids, state.holds id = true) : ∀ name ∈ names, name ∈ state.names facts := by
  intro name hname
  obtain ⟨id, hid⟩ := h.declared name hname
  exact ⟨id, hid, hholds id ((h.mem_iff_of_get hid).mpr hname)⟩

theorem forall_not_mem_names (h : Denotes facts ids names)
    (hholds : ∀ id ∈ ids, state.holds id = false) :
    ∀ name ∈ names, name ∉ state.names facts := by
  rintro name hname ⟨id, hid, htrue⟩
  rw [hholds id ((h.mem_iff_of_get hid).mpr hname)] at htrue
  cases htrue

end Denotes

structure Action.StandsFor (facts : List String) (action : Action) (named : NamedAction) : Prop where
  name_eq : action.name = named.name
  pre : Denotes facts action.pre named.pre
  preNeg : Denotes facts action.preNeg named.preNeg
  add : Denotes facts action.add named.add
  del : Denotes facts action.del named.del

namespace Action.StandsFor

variable {facts : List String} {action : Action} {named : NamedAction} {state final : State}

theorem enabled (h : action.StandsFor facts named) (happlicable : action.isApplicable state = true) :
    named.Enabled (state.names facts) := by
  obtain ⟨hpre, hpreNeg⟩ := isApplicable_iff.mp happlicable
  exact ⟨h.pre.forall_mem_names hpre, h.preNeg.forall_not_mem_names hpreNeg⟩

theorem names_apply (h : action.StandsFor facts named) (hsize : state.size = facts.length) :
    (action.apply state).names facts = named.result (state.names facts) := by
  ext name
  constructor
  · rintro ⟨id, hid, hholds⟩
    obtain ⟨-, hadd | ⟨hbefore, hdel⟩⟩ := holds_apply.mp hholds
    · exact Or.inl ((h.add.mem_iff_of_get hid).mp hadd)
    · refine Or.inr ⟨⟨id, hid, hbefore⟩, fun hname => hdel ?_⟩
      exact (h.del.mem_iff_of_get hid).mpr hname
  · rintro (hadd | ⟨⟨id, hid, hbefore⟩, hdel⟩)
    · obtain ⟨id, hid⟩ := h.add.declared name hadd
      obtain ⟨hlt, -⟩ := List.getElem?_eq_some_iff.mp hid
      refine ⟨id, hid, holds_apply.mpr ⟨hsize ▸ hlt, Or.inl ?_⟩⟩
      exact (h.add.mem_iff_of_get hid).mpr hadd
    · refine ⟨id, hid, holds_apply.mpr ⟨State.lt_size_of_holds hbefore, Or.inr ⟨hbefore, ?_⟩⟩⟩
      exact fun hid' => hdel ((h.del.mem_iff_of_get hid).mp hid')

theorem runs {actions : List Action} {named : List NamedAction}
    (h : List.Forall₂ (Action.StandsFor facts) actions named) (hsize : state.size = facts.length)
    (htake : takeAll actions state = some final) :
    NamedAction.Runs named (state.names facts) (final.names facts) := by
  induction h generalizing state with
  | nil =>
      cases htake
      exact .nil _
  | cons hfirst _ ih =>
      rw [takeAll] at htake
      split at htake
      · rename_i happlicable
        refine .cons (hfirst.enabled happlicable) ?_
        rw [← hfirst.names_apply hsize]
        exact ih ((size_apply _ state).trans hsize) htake
      · cases htake

end Action.StandsFor

structure Problem.StandsFor (problem : Problem) (domain : DomainFile) (file : ProblemFile) :
    Prop where
  facts_eq : problem.facts = domain.facts
  facts_nodup : domain.facts.Nodup
  actions : List.Forall₂ (Action.StandsFor domain.facts) problem.actions domain.actions
  init : Denotes domain.facts problem.init.trueFacts file.init
  goal_pos : Denotes domain.facts problem.goal.pos file.goal.pos
  goal_neg : Denotes domain.facts problem.goal.neg file.goal.neg

namespace Problem.StandsFor

variable {problem : Problem} {domain : DomainFile} {file : ProblemFile} {final : State}

theorem names_init (h : problem.StandsFor domain file) :
    problem.init.names domain.facts = {name | name ∈ file.init} := by
  ext name
  constructor
  · rintro ⟨id, hid, hholds⟩
    exact (h.init.mem_iff_of_get hid).mp (State.mem_trueFacts.mpr hholds)
  · intro hname
    obtain ⟨id, hid⟩ := h.init.declared name hname
    exact ⟨id, hid, State.mem_trueFacts.mp ((h.init.mem_iff_of_get hid).mpr hname)⟩

theorem goal_holds (h : problem.StandsFor domain file)
    (hgoal : problem.goal.isSatisfiedBy final = true) :
    file.goal.Holds (final.names domain.facts) := by
  rw [Goal.isSatisfiedBy, Bool.and_eq_true, List.all_eq_true, List.all_eq_true] at hgoal
  refine ⟨h.goal_pos.forall_mem_names hgoal.1, h.goal_neg.forall_not_mem_names fun id hid => ?_⟩
  simpa using hgoal.2 id hid

end Problem.StandsFor

end BoundedPlanning
