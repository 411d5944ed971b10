import BoundedPlanning.Problem

/-!
A static test for goals that no plan can reach.  Deletes and negative preconditions are ignored:
facts are only gained, until no waiting action gains another one.
-/

namespace BoundedPlanning

/-- What one pass over the waiting actions leaves behind. -/
structure RelaxedPass where
  reached : State
  waiting : List Action
  changed : Bool

/-- Go once through the waiting actions; an action whose positive preconditions are reached fires
at once and is not kept. -/
def relaxedPass : List Action → State → RelaxedPass
  | [], reached => ⟨reached, [], false⟩
  | action :: rest, reached =>
    if action.pre.all reached.holds then
      let pass := relaxedPass rest (reached.setAll action.add true)
      { pass with changed := action.add.any (fun fact => !reached.holds fact) || pass.changed }
    else
      let pass := relaxedPass rest reached
      { pass with waiting := action :: pass.waiting }

theorem length_waiting_relaxedPass_le (actions : List Action) (reached : State) :
    (relaxedPass actions reached).waiting.length ≤ actions.length := by
  induction actions generalizing reached with
  | nil => exact Nat.le_refl _
  | cons action rest ih =>
    unfold relaxedPass
    split
    · exact Nat.le_succ_of_le (ih _)
    · exact Nat.succ_le_succ (ih _)

/-- A pass that gains a fact retires an action. -/
theorem length_waiting_relaxedPass_lt {actions : List Action} {reached : State}
    (h : (relaxedPass actions reached).changed = true) :
    (relaxedPass actions reached).waiting.length < actions.length := by
  induction actions generalizing reached with
  | nil => cases h
  | cons action rest ih =>
    unfold relaxedPass at h ⊢
    split
    · exact Nat.lt_succ_of_le (length_waiting_relaxedPass_le _ _)
    · rename_i hpre
      rw [if_neg hpre] at h
      exact Nat.succ_lt_succ (ih h)

def relaxedClosure (waiting : List Action) (reached : State) : State :=
  let pass := relaxedPass waiting reached
  if _h : pass.changed = true then relaxedClosure pass.waiting pass.reached else pass.reached
termination_by waiting.length
decreasing_by exact length_waiting_relaxedPass_lt _h

namespace Problem

/-- The facts that can become true when nothing is ever deleted. -/
def relaxedReachable (problem : Problem) : State := relaxedClosure problem.actions problem.init

/-- Whether the goal passes the static test: its true facts are reachable when nothing is deleted,
and each of its false facts is false at the start or deleted by some action. -/
def goalPossiblyReachable (problem : Problem) : Bool :=
  problem.goal.pos.all problem.relaxedReachable.holds &&
    (problem.goal.neg.filter problem.init.holds).all fun fact =>
      problem.actions.any fun action => action.deletes fact

end Problem

end BoundedPlanning
