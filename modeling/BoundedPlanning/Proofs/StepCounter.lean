import BoundedPlanning.Proofs.Layout

/-!
The counter of steps has 32 bits and starts over after the last of them.  No encoding notices: only
a problem without facts and actions gets so far, and none of its steps has variables or clauses.
-/

namespace BoundedPlanning

theorem toNat_toUInt32_of_lt {n : Nat} (h : n < bound32) : n.toUInt32.toNat = n :=
  UInt32.toNat_ofNat_of_lt h

theorem succ_toUInt32 (n : Nat) : (n + 1).toUInt32 = n.toUInt32 + 1 :=
  UInt32.ofNat_add n 1

theorem bound32_le_of_toUInt32_eq_zero {n : Nat} (hpos : n ≠ 0) (h : n.toUInt32 = 0) :
    bound32 ≤ n := by
  by_contra hlt
  have hzero := toNat_toUInt32_of_lt (Nat.lt_of_not_le hlt)
  rw [h] at hzero
  exact hpos hzero.symm

namespace Encoder

variable {problem : Problem} {semantics : StepSemantics} {last : Nat}
  {encoder : Encoder problem semantics}

theorem encodeTransition_nextStep (h : encoder.nextStep ≠ 0) :
    encoder.encodeTransition encoder.nextStep = encoder.link encoder.nextStep.toNat :=
  if_neg (by simp [h])

section Blank

variable (hfacts : problem.factCount = 0)

include hfacts

theorem encodeInit_of_blank (hstep : encoder.nextStep = 0) :
    encoder.encodeInit = .ok ([], { encoder with nextStep := 1 }) := by
  rw [encodeInit, if_neg (not_not.mpr hstep), Problem.factIds, hfacts]
  rfl

variable (hactions : problem.actionCount = 0)

include hactions

theorem clauses_of_blank :
    TransitionVars.clauses ⟨#[], #[], #[], #[]⟩ problem semantics
      (TransitionScheme.of problem semantics) = [] := by
  have hnumbered : problem.numberedActions = [] := by
    rw [Problem.numberedActions, List.eq_nil_of_length_eq_zero hactions]
    rfl
  have hchanges : problem.factChanges = [] := by
    rw [Problem.factChanges, Problem.factIds, hfacts]
    rfl
  have hpairs : problem.interferingPairs = [] := by
    rw [Problem.interferingPairs, hnumbered]
    rfl
  simp only [TransitionVars.clauses, TransitionVars.preconditions, TransitionVars.effects,
    TransitionVars.frame, TransitionScheme.of, hnumbered, hchanges]
  cases semantics with
  | sequential => rfl
  | parallel => simp [TransitionVars.exclusion, hpairs]

theorem link_of_blank (step : Nat) :
    encoder.link step = .ok ([], { encoder with nextStep := step.toUInt32 + 1 }) := by
  have hrange : List.range encoder.scheme.exclusion.vars = [] := by
    rw [encoder.scheme_eq, Problem.exclusion_vars, Problem.auxCount_eq, hactions]
    simp
  have hvars : encoder.transitionVars step = .ok (⟨#[], #[], #[], #[]⟩, encoder.index) := by
    rw [transitionVars, Problem.factIds, hfacts, hactions, hrange]
    rfl
  have hclauses :
      TransitionVars.clauses ⟨#[], #[], #[], #[]⟩ problem semantics encoder.scheme = [] := by
    rw [encoder.scheme_eq]
    exact clauses_of_blank hfacts hactions
  rw [link, hvars]
  show (clausesOfLiterals (TransitionVars.clauses _ problem semantics encoder.scheme) >>= _) = _
  rw [hclauses]
  rfl

end Blank

/-- More steps than the counter can tell apart have numbers for their variables only if they have
none. -/
theorem EncodedTo.blank (h : encoder.EncodedTo last) (hlast : bound32 ≤ last + 1) :
    problem.factCount = 0 ∧ problem.actionCount = 0 := by
  have hsteps : maxVariable + 1 ≤ last := by
    unfold bound32 at hlast
    unfold maxVariable
    omega
  have hgrowth := Nat.mul_le_mul_right
    (problem.actionCount + problem.factCount + problem.auxCount semantics) hsteps
  have hsize := h.consistent.size_le
  rw [h.size_eq, Problem.variablesThrough] at hsize
  have hnone : problem.actionCount + problem.factCount + problem.auxCount semantics = 0 := by
    by_contra hsome
    have hroom := Nat.le_mul_of_pos_right (maxVariable + 1) (Nat.pos_of_ne_zero hsome)
    omega
  omega

theorem EncodedTo.encodeStep_succ (h : encoder.EncodedTo last) :
    encoder.encodeStep (last + 1) = encoder.link (last + 1) := by
  rw [encodeStep, ← h.nextStep_eq]
  by_cases hlast : last + 1 < bound32
  · have hnext : encoder.nextStep.toNat = last + 1 := by
      rw [h.nextStep_eq, toNat_toUInt32_of_lt hlast]
    have hpos : encoder.nextStep ≠ 0 := by
      intro hzero
      rw [hzero] at hnext
      cases hnext
    rw [if_neg hpos, encodeTransition_nextStep hpos, hnext]
  · obtain ⟨hfacts, hactions⟩ := h.blank (Nat.le_of_not_lt hlast)
    have hcounter : (last + 1).toUInt32 = encoder.nextStep := h.nextStep_eq.symm
    rw [link_of_blank hfacts hactions, hcounter]
    split
    · rename_i hzero
      rw [encodeInit_of_blank hfacts hzero, hzero]
      rfl
    · rename_i hpos
      rw [encodeTransition_nextStep hpos, link_of_blank hfacts hactions]
      rw [show encoder.nextStep.toNat.toUInt32 = encoder.nextStep from UInt32.ofNat_toNat]

end Encoder

end BoundedPlanning
