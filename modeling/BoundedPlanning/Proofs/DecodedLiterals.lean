import BoundedPlanning.Proofs.ModelVerdict
import BoundedPlanning.Proofs.Numbering
import Mathlib.Data.List.Permutation
import Mathlib.Order.Nat
import Mathlib.Tactic.IntervalCases

namespace BoundedPlanning

def lastMention? (lits : List Int) (var : Nat) : Option Int :=
  lits.reverse.find? fun lit => lit.natAbs == var

def Affirms (lits : List Int) (var : Nat) : Prop :=
  0 < var ∧ lastMention? lits var = some (var : Int)

instance (lits : List Int) (var : Nat) : Decidable (Affirms lits var) :=
  inferInstanceAs (Decidable (_ ∧ _))

section Literals

variable {lits : List Int} {lit : Int} {var : Nat}

theorem lastMention?_concat :
    lastMention? (lits ++ [lit]) var =
      if lit.natAbs = var then some lit else lastMention? lits var := by
  rw [lastMention?, List.reverse_append, List.reverse_singleton, List.singleton_append,
    List.find?_cons]
  by_cases hlit : lit.natAbs = var
  · simp [hlit]
  · rw [if_neg hlit, beq_eq_false_iff_ne.mpr hlit, lastMention?]

theorem affirms_concat :
    Affirms (lits ++ [lit]) var ↔ if lit.natAbs = var then 0 < lit else Affirms lits var := by
  rw [Affirms, lastMention?_concat]
  split
  · rw [Option.some.injEq]
    omega
  · rfl

theorem Affirms.mem (h : Affirms lits var) : (var : Int) ∈ lits :=
  List.mem_reverse.mp (List.mem_of_find?_eq_some h.2)

namespace Model

theorem ofLiterals_concat :
    ofLiterals (lits ++ [lit]) =
      if lit = 0 then ofLiterals lits
      else (ofLiterals lits).assign lit.natAbs (decide (0 < lit)) := by
  rw [ofLiterals, List.foldl_append]
  rfl

theorem value?_assign_eq_true_iff {model : Model} {value : Bool} {other : Nat} (hvar : 0 < var) :
    (model.assign var value).value? other = some true ↔
      if var = other then value = true else model.value? other = some true := by
  by_cases hother : other = 0
  · subst hother
    simp [value?, Nat.ne_of_gt hvar]
  · simp only [value?, if_neg hother, assign, Array.getElem?_setIfInBounds, Array.size_append,
      Array.size_replicate]
    by_cases hsame : var = other
    · rw [if_pos (by omega), if_pos (by omega), if_pos hsame, Option.some.injEq]
    · rw [if_neg (by omega), if_neg hsame, Array.getElem?_append]
      split
      · rfl
      · rename_i hlarge
        rw [Array.getElem?_replicate, Array.getElem?_eq_none (Nat.le_of_not_lt hlarge)]
        split <;> simp

theorem mem_trueVars_ofLiterals : var ∈ (ofLiterals lits).trueVars ↔ Affirms lits var := by
  rw [mem_trueVars]
  induction lits using List.reverseRecOn with
  | nil => simp [ofLiterals, value?, Affirms, lastMention?]
  | append_singleton lits lit ih =>
      rw [ofLiterals_concat, affirms_concat]
      by_cases hzero : lit = 0
      · rw [if_pos hzero, ih]
        split
        · simp [Affirms]
          omega
        · rfl
      · rw [if_neg hzero, value?_assign_eq_true_iff (Int.natAbs_pos.mpr hzero),
          decide_eq_true_eq, ih]

end Model

end Literals

namespace VariableIndex

/-- The literals make the action true at a time below the horizon. -/
def Chooses (index : VariableIndex) (lits : List Int) (horizon time id : Nat) : Prop :=
  time < horizon ∧ ∃ var, index.get? (.action id) time = some var ∧ Affirms lits var

/-- The literals make several actions true at a time below the horizon. -/
def ChoosesSeveral (index : VariableIndex) (lits : List Int) (horizon time : Nat) : Prop :=
  ∃ i j, index.Chooses lits horizon time i ∧ index.Chooses lits horizon time j ∧ i ≠ j

/-- All variables that the literals make true were handed out. -/
def Recognizes (index : VariableIndex) (lits : List Int) : Prop :=
  ∀ var, Affirms lits var → var ≤ index.size

variable {index : VariableIndex} {lits : List Int} {horizon time id : Nat}

theorem knows_ofLiterals_iff : index.Knows (.ofLiterals lits) ↔ index.Recognizes lits :=
  forall_congr' fun _ => imp_congr_left Model.mem_trueVars_ofLiterals

theorem Recognizes.lt_bound32 (hindex : index.Consistent) (h : index.Recognizes lits) :
    ∀ var, Affirms lits var → var < bound32 :=
  fun var hvar => ((h var hvar).trans hindex.size_le).trans_lt maxVariable_lt

theorem selects_ofLiterals_iff :
    index.Selects (.ofLiterals lits) horizon time id ↔ index.Chooses lits horizon time id := by
  simp only [Selects, Chooses, valueOf_eq_some_iff, ← Model.mem_trueVars,
    Model.mem_trueVars_ofLiterals]

end VariableIndex

/-- What a list of literals is decoded to. -/
inductive Readout (index : VariableIndex) (semantics : StepSemantics) (lits : List Int)
    (horizon : Nat) : Except EncodingError Plan → Prop
  | unknownVariable {var : Nat}
      (hleast : IsLeast {var | Affirms lits var ∧ index.size < var} var) :
      Readout index semantics lits horizon (.error (.unknownVariable var))
  | severalActions {time : Nat} {actions : List Nat} (hknown : index.Recognizes lits)
      (hsequential : semantics = .sequential)
      (hleast : IsLeast {time | index.ChoosesSeveral lits horizon time} time)
      (hascending : actions.Pairwise (· < ·))
      (hactions : ∀ id, id ∈ actions ↔ index.Chooses lits horizon time id) :
      Readout index semantics lits horizon (.error (.multipleActionsPerStep time actions))
  | plan {plan : Plan} (hknown : index.Recognizes lits)
      (hsingle : semantics = .sequential → ∀ time, ¬ index.ChoosesSeveral lits horizon time)
      (hcanonical : plan.Canonical)
      (hactions : ∀ time id, (∃ step ∈ plan.steps, step.time = time ∧ id ∈ step.actions) ↔
        index.Chooses lits horizon time id) :
      Readout index semantics lits horizon (.ok plan)

section Readouts

variable {index : VariableIndex} {semantics : StepSemantics} {lits other : List Int} {horizon : Nat}
  {result : Except EncodingError Plan}

theorem decode_of_readout (hindex : index.Consistent)
    (hwidth : ∀ var, Affirms lits var → var < bound32)
    (h : Readout index semantics lits horizon result) :
    decode index semantics (.ofLiterals lits) horizon = result := by
  cases h with
  | unknownVariable hleast =>
      obtain ⟨⟨htrue, hunknown⟩, hleast⟩ := hleast
      refine decode_of_unknownVariable hindex (fun var hvar => ?_)
        (Model.mem_trueVars_ofLiterals.mpr htrue) hunknown fun smaller hsmaller hlt => ?_
      · exact hwidth var (Model.mem_trueVars_ofLiterals.mp hvar)
      apply Nat.le_of_not_lt
      intro hlarge
      exact Nat.not_le_of_lt hlt (hleast ⟨Model.mem_trueVars_ofLiterals.mp hsmaller, hlarge⟩)
  | severalActions hknown hsequential hleast hascending hactions =>
      subst hsequential
      obtain ⟨⟨i, j, hi, hj, hne⟩, hleast⟩ := hleast
      apply decode_of_multipleActions hindex (VariableIndex.knows_ofLiterals_iff.mpr hknown) hascending
      · simpa only [VariableIndex.selects_ofLiterals_iff] using hactions
      · exact one_lt_length_of_ne ((hactions i).mpr hi) ((hactions j).mpr hj) hne
      · intro earlier hlt a b ha hb
        rw [VariableIndex.selects_ofLiterals_iff] at ha hb
        by_contra hab
        exact Nat.not_le_of_lt hlt (hleast ⟨a, b, ha, hb, hab⟩)
  | plan hknown hsingle hcanonical hactions =>
      apply decode_of_selectsPlan hindex
      refine ⟨VariableIndex.knows_ofLiterals_iff.mpr hknown, hcanonical, ?_, ?_⟩
      · intro time id
        rw [Plan.mem_actionsAt hcanonical.chronological, hactions,
          VariableIndex.selects_ofLiterals_iff]
      · intro hsequential time i j hi hj
        rw [VariableIndex.selects_ofLiterals_iff] at hi hj
        by_contra hne
        exact hsingle hsequential time ⟨i, j, hi, hj, hne⟩

theorem exists_readout_of_several (hindex : index.Consistent) (hknown : index.Recognizes lits)
    {time : Nat} (hleast : IsLeast {time | index.ChoosesSeveral lits horizon time} time) :
    ∃ result, Readout index .sequential lits horizon result := by
  obtain ⟨entities, -, hcanonical, hactions⟩ :=
    exists_selectedSteps hindex (VariableIndex.knows_ofLiterals_iff.mpr hknown) horizon
  refine ⟨_, .severalActions hknown rfl hleast (hcanonical.pairwise_actionsAt time) fun id => ?_⟩
  rw [hactions]
  exact VariableIndex.selects_ofLiterals_iff

theorem exists_readout_of_single (hindex : index.Consistent) (hknown : index.Recognizes lits)
    (hsingle : semantics = .sequential → ∀ time, ¬ index.ChoosesSeveral lits horizon time) :
    ∃ result, Readout index semantics lits horizon result := by
  obtain ⟨entities, -, hcanonical, hactions⟩ :=
    exists_selectedSteps hindex (VariableIndex.knows_ofLiterals_iff.mpr hknown) horizon
  refine ⟨_, .plan hknown hsingle hcanonical fun time id => ?_⟩
  rw [← Plan.mem_actionsAt hcanonical.chronological, hactions]
  exact VariableIndex.selects_ofLiterals_iff

theorem exists_readout (hindex : index.Consistent) (semantics : StepSemantics) (lits : List Int)
    (horizon : Nat) : ∃ result, Readout index semantics lits horizon result := by
  classical
  by_cases hunknown : ∃ var, Affirms lits var ∧ index.size < var
  · exact ⟨_, .unknownVariable (Nat.isLeast_find hunknown)⟩
  have hknown : index.Recognizes lits := fun var hvar =>
    Nat.le_of_not_lt fun hlarge => hunknown ⟨var, hvar, hlarge⟩
  by_cases hsingle : semantics = .sequential → ∀ time, ¬ index.ChoosesSeveral lits horizon time
  · exact exists_readout_of_single hindex hknown hsingle
  · obtain ⟨rfl, hseveral⟩ := Classical.not_imp.mp hsingle
    exact exists_readout_of_several hindex hknown (Nat.isLeast_find (not_forall_not.mp hseveral))

theorem readout_iff (hindex : index.Consistent)
    (hwidth : ∀ var, Affirms lits var → var < bound32) :
    Readout index semantics lits horizon result ↔
      decode index semantics (.ofLiterals lits) horizon = result := by
  constructor
  · exact decode_of_readout hindex hwidth
  · rintro rfl
    obtain ⟨found, hfound⟩ := exists_readout hindex semantics lits horizon
    rwa [decode_of_readout hindex hwidth hfound]

/-- Once all true variables are known, only the actions below the horizon count. -/
theorem Readout.congr (h : Readout index semantics lits horizon result)
    (hlits : index.Recognizes lits) (hother : index.Recognizes other)
    (hsame : ∀ time id, index.Chooses other horizon time id ↔ index.Chooses lits horizon time id) :
    Readout index semantics other horizon result := by
  cases h with
  | unknownVariable hleast =>
      obtain ⟨⟨htrue, hunknown⟩, -⟩ := hleast
      exact absurd (hlits _ htrue) (Nat.not_le_of_lt hunknown)
  | severalActions hknown hsequential hleast hascending hactions =>
      simp only [VariableIndex.ChoosesSeveral, ← hsame] at hleast hactions
      exact .severalActions hother hsequential hleast hascending hactions
  | plan hknown hsingle hcanonical hactions =>
      simp only [VariableIndex.ChoosesSeveral, ← hsame] at hsingle hactions
      exact .plan hother hsingle hcanonical hactions

end Readouts

section Reachable

open VariableIndex

/-- Whatever was asked of an index and whatever literals of 32 bits are given, decoding comes to the one
readout of the literals.  Facts, auxiliaries and actions at or beyond the horizon do not matter for it, as
long as their variables were handed out. -/
theorem decode_reads_selection {requests : List (Entity × Nat)} {index : VariableIndex}
    (hindex : afterRequests requests = index) (semantics : StepSemantics) (lits : List Int)
    (horizon : Nat) :
    ((∀ lit ∈ lits, lit.natAbs < bound32) → ∀ result,
      Readout index semantics lits horizon result ↔
        decode index semantics (.ofLiterals lits) horizon = result) ∧
    ∀ other, index.Recognizes lits → index.Recognizes other →
      (∀ id, ∀ time < horizon, ∀ var, index.get? (.action id) time = some var →
        (Affirms other var ↔ Affirms lits var)) →
      decode index semantics (.ofLiterals other) horizon =
        decode index semantics (.ofLiterals lits) horizon := by
  have hconsistent : index.Consistent := hindex ▸ consistent_afterRequests requests
  refine ⟨fun hwidth result => readout_iff hconsistent fun var hvar => hwidth var hvar.mem,
    fun other hlits hother hsame => ?_⟩
  apply (readout_iff hconsistent (hother.lt_bound32 hconsistent)).mp
  apply Readout.congr ((readout_iff hconsistent (hlits.lt_bound32 hconsistent)).mpr rfl) hlits hother
  intro time id
  apply and_congr_right
  intro htime
  exact exists_congr fun var => and_congr_right fun hget => hsame id time htime var hget

def scatteredRequests : List (Entity × Nat) :=
  [(.action 4, 2), (.fact 0, 0), (.action 1, 2), (.aux 0, 1), (.action 3, 0), (.action 7, 9)]

def scatteredLiterals : List Int := [0, 3, -3, 1, 3, 2, 4, -5, 5, 6]

theorem decode_reads_selection_scattered :
    Readout (afterRequests scatteredRequests) .sequential scatteredLiterals 3
      (.error (.multipleActionsPerStep 2 [1, 4])) ∧
    Readout (afterRequests scatteredRequests) .parallel scatteredLiterals 3
      (.ok ⟨[⟨0, [3]⟩, ⟨2, [1, 4]⟩]⟩) ∧
    (afterRequests scatteredRequests).Recognizes scatteredLiterals ∧
    (afterRequests scatteredRequests).Recognizes [5, 1, 3] ∧
    decode (afterRequests scatteredRequests) .parallel (.ofLiterals [5, 1, 3]) 3 =
      decode (afterRequests scatteredRequests) .parallel (.ofLiterals scatteredLiterals) 3 := by
  obtain ⟨hsequential, -⟩ :=
    decode_reads_selection (show afterRequests scatteredRequests = _ from rfl) .sequential
      scatteredLiterals 3
  obtain ⟨hparallel, hcongr⟩ :=
    decode_reads_selection (show afterRequests scatteredRequests = _ from rfl) .parallel
      scatteredLiterals 3
  have hwidth : ∀ lit ∈ scatteredLiterals, lit.natAbs < bound32 := by
    decide
  have hsize : (afterRequests scatteredRequests).size = 6 := by
    cbv
  have hall : (afterRequests scatteredRequests).Recognizes scatteredLiterals := by
    intro var hvar
    have hmem := hvar.mem
    simp only [scatteredLiterals, List.mem_cons, List.not_mem_nil, or_false] at hmem
    omega
  have hfew : (afterRequests scatteredRequests).Recognizes [5, 1, 3] := by
    intro var hvar
    have hmem := hvar.mem
    simp only [List.mem_cons, List.not_mem_nil, or_false] at hmem
    omega
  refine ⟨(hsequential hwidth _).mpr (by cbv), (hparallel hwidth _).mpr (by cbv), hall, hfew,
    hcongr [5, 1, 3] hall hfew ?_⟩
  intro id time htime var hget
  have hconsistent := consistent_afterRequests scatteredRequests
  have hbounds := get?_bounds hconsistent hget
  have hentity := (entityOf_eq_ok_iff_get? hconsistent).mpr hget
  rw [hsize] at hbounds
  obtain ⟨hpos, hle⟩ := hbounds
  have hfact : (afterRequests scatteredRequests).entityOf 2 = .ok (.fact 0, 0) := by
    cbv
  have haux : (afterRequests scatteredRequests).entityOf 4 = .ok (.aux 0, 1) := by
    cbv
  have hlate : (afterRequests scatteredRequests).entityOf 6 = .ok (.action 7, 9) := by
    cbv
  interval_cases var
  · decide
  · cases hfact.symm.trans hentity
  · decide
  · cases haux.symm.trans hentity
  · decide
  · cases hlate.symm.trans hentity
    omega

end Reachable

end BoundedPlanning
