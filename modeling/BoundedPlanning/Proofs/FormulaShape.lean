import BoundedPlanning.Proofs.AccumulatedFormula
import BoundedPlanning.Proofs.DistinctClauses

namespace BoundedPlanning

def EncodingError.IsLimit : EncodingError → Prop
  | .keyOverflow _ _ => True
  | .idSpaceExhausted => True
  | _ => False

/-- The entity at the step has a part in the transition from `time` to `time + 1`. -/
def Entity.TakesPart (time : Nat) (entity : Entity) (step : Nat) : Prop :=
  match entity with
  | .fact _ => step = time ∨ step = time + 1
  | .action _ => step = time
  | .aux _ => step = time

namespace VariableIndex

def PartOf (index : VariableIndex) (time var : Nat) : Prop :=
  ∃ entity step, index.get? entity step = some var ∧ entity.TakesPart time step

/-- The variable stands for something that has one in the later index only. -/
def IsNew (before after : VariableIndex) (var : Nat) : Prop :=
  ∃ entity step, before.get? entity step = none ∧ after.get? entity step = some var

end VariableIndex

/-- What a clause of the transition from `time` to `time + 1` mentions, read through the variables
before the transition and those after it. -/
structure Clause.OfTransition (clause : Clause) (before after : VariableIndex) (time : Nat) :
    Prop where
  two_le_size : 2 ≤ clause.size
  mentions : ∀ lit ∈ clause.literals, after.PartOf time lit.natAbs
  mentions_new : ∃ lit ∈ clause.literals, before.IsNew after lit.natAbs

/-- The form of the clauses of the steps 0 to `last`, whose variables are those of the index. -/
structure FormulaShape (problem : Problem) (semantics : StepSemantics) (last : Nat)
    (clauses : List Clause) (index : VariableIndex) : Prop where
  nodup : clauses.Nodup
  /-- The unit clauses are those of step 0: one for each fact, with its initial value. -/
  units : ∃ initial first, (Encoder.init problem semantics).encodeInit = .ok (initial, first) ∧
    clauses.filter Clause.isUnit = initial ∧
    List.Forall₂ (fun fact clause => ∃ var, index.get? (.fact fact) 0 = some var ∧
      clause.literals = [literal var (problem.init.holds fact)]) problem.factIds initial
  transitions : ∀ time < last, ∃ earlier before delta after later,
    encodeThrough problem semantics time = .ok (earlier, before) ∧
    before.encodeStep (time + 1) = .ok (delta, after) ∧
    clauses = earlier ++ delta ++ later ∧
    ∀ clause ∈ delta, clause ∉ earlier ∧ clause.OfTransition before.index after.index time
  not_opposing : ∀ a ∈ clauses, ∀ b ∈ clauses, ∀ lit, a.literals = [lit] → b.literals ≠ [-lit]

section Failures

variable {problem : Problem} {semantics : StepSemantics} {encoder : Encoder problem semantics}
  {error : EncodingError}

theorem VariableIndex.isLimit_of_idsOf {index : VariableIndex} {entities : List Entity} {step : Nat}
    (h : index.idsOf entities step = .error error) : error.IsLimit := by
  induction entities generalizing index with
  | nil => cases h
  | cons entity rest ih =>
      rcases except_bind_eq_error h with hfirst | ⟨⟨var, middle⟩, -, h⟩
      · rcases VariableIndex.idOf_eq_error_iff.mp hfirst with ⟨rfl, -⟩ | ⟨rfl, -⟩
        all_goals trivial
      · rcases except_bind_eq_error h with hrest | ⟨others, -, h⟩
        · exact ih hrest
        · cases h

theorem Encoder.isLimit_of_transitionVars {step : Nat}
    (h : encoder.transitionVars step = .error error) : error.IsLimit := by
  rcases except_bind_eq_error h with hactions | ⟨actions, -, h⟩
  · exact VariableIndex.isLimit_of_idsOf hactions
  rcases except_bind_eq_error h with hbefore | ⟨before, -, h⟩
  · exact VariableIndex.isLimit_of_idsOf hbefore
  rcases except_bind_eq_error h with hafter | ⟨after, -, h⟩
  · exact VariableIndex.isLimit_of_idsOf hafter
  rcases except_bind_eq_error h with haux | ⟨aux, -, h⟩
  · exact VariableIndex.isLimit_of_idsOf haux
  · cases h

/-- A call fails because it is out of order or for lack of keys or numbers; the clauses themselves
are never at fault. -/
theorem error_of_encodeInit {step : Nat} (hencoder : encoderBefore problem semantics step = .ok encoder)
    (h : encoder.encodeInit = .error error) :
    error = .outOfOrder encoder.nextStep.toNat 0 ∨ error.IsLimit := by
  by_cases hnext : encoder.nextStep = 0
  · right
    cases step with
    | zero =>
        cases hencoder
        rw [Encoder.encodeInit, if_neg (not_not.mpr hnext)] at h
        rcases except_bind_eq_error h with hvars | ⟨⟨vars, index⟩, hvars, h⟩
        · exact VariableIndex.isLimit_of_idsOf hvars
        · have hgiven := VariableIndex.handsOut_idsOf VariableIndex.consistent_empty hvars
          obtain ⟨clauses, hclauses⟩ :=
            Encoder.exists_initialClauses hgiven.consistent hgiven.vars_eq
          rcases except_bind_eq_error h with herror | ⟨found, -, h⟩
          · rw [hclauses] at herror
            cases herror
          · cases h
    | succ last =>
        have hencoded := encodedTo_of_encoderBefore hencoder
        have hbound := bound32_le_of_toUInt32_eq_zero (Nat.succ_ne_zero last)
          (hencoded.nextStep_eq.symm.trans hnext)
        rw [Encoder.encodeInit_of_blank (hencoded.blank hbound).1 hnext] at h
        cases h
  · rw [Encoder.encodeInit, if_pos hnext] at h
    exact Or.inl (Except.error.inj h).symm

theorem error_of_encodeTransition {step : Nat} {requested : UInt32}
    (hencoder : encoderBefore problem semantics step = .ok encoder)
    (h : encoder.encodeTransition requested = .error error) :
    error = .outOfOrder encoder.nextStep.toNat requested.toNat ∨ error.IsLimit := by
  by_cases horder : requested = 0 ∨ requested ≠ encoder.nextStep
  · rw [Encoder.encodeTransition, if_pos horder] at h
    exact Or.inl (Except.error.inj h).symm
  · obtain ⟨hpos, heq⟩ := not_or.mp horder
    obtain rfl := not_not.mp heq
    right
    cases step with
    | zero =>
        cases hencoder
        exact absurd rfl hpos
    | succ last =>
        have hencoded := encodedTo_of_encoderBefore hencoder
        have hlink := hencoded.encodeStep_succ
        rw [Encoder.encodeStep, ← hencoded.nextStep_eq, if_neg hpos, h] at hlink
        rcases except_bind_eq_error hlink.symm with hvars | ⟨⟨vars, index⟩, hvars, h⟩
        · exact Encoder.isLimit_of_transitionVars hvars
        · obtain ⟨hindex, -, hread⟩ := Encoder.readFrom_of_transitionVars hencoded hvars
          obtain ⟨delta, hdelta⟩ := exists_clausesOfLiterals_eq_ok fun lits hlits =>
            (TransitionVars.linking_clauses hindex hread lits hlits).exists_clause
          rw [← encoder.scheme_eq] at hdelta
          rcases except_bind_eq_error h with herror | ⟨found, -, h⟩
          · rw [hdelta] at herror
            cases herror
          · cases h

end Failures

namespace TransitionVars

variable {vars : TransitionVars} {problem : Problem} {semantics : StepSemantics}
  {index : VariableIndex} {time : Nat}

theorem partOf_of_mem_clauses (hread : vars.ReadFrom index problem semantics time) :
    ∀ lits ∈ vars.clauses problem semantics (TransitionScheme.of problem semantics),
      ∀ lit ∈ lits, index.PartOf time lit.natAbs := by
  have haction : ∀ id < problem.actionCount, index.PartOf time (vars.action id) := fun id hid =>
    ⟨.action id, time, hread.action id hid, rfl⟩
  rw [clauses, List.forall_mem_append]
  constructor
  · apply forall_var_linking haction
    · exact fun fact hfact => ⟨.fact fact, time, hread.before fact hfact, Or.inl rfl⟩
    · exact fun fact hfact => ⟨.fact fact, time + 1, hread.after fact hfact, Or.inr rfl⟩
  · apply forall_var_exclusion hread haction
    exact fun n hn => ⟨.aux n, time, hread.aux n hn, rfl⟩

/-- Every clause of a transition mentions an action, a fact after it or an auxiliary. -/
theorem exists_isNew_of_mem_clauses {before : VariableIndex} (hindex : index.Consistent)
    (hread : vars.ReadFrom index problem semantics time)
    (hnew : ∀ entity step, (entity, step) ∈ problem.blockEntries semantics time →
      before.get? entity step = none) :
    ∀ lits ∈ vars.clauses problem semantics (TransitionScheme.of problem semantics),
      ∃ lit ∈ lits, before.IsNew index lit.natAbs := by
  have haction : ∀ id < problem.actionCount, before.IsNew index (vars.action id) := fun id hid =>
    ⟨.action id, time, hnew _ _ (by simp [Problem.blockEntries, hid]), hread.action id hid⟩
  have hafter : ∀ fact < problem.factCount, before.IsNew index (vars.factAfter fact) :=
    fun fact hfact => ⟨.fact fact, time + 1, hnew _ _ (by simp [Problem.blockEntries, hfact]),
      hread.after fact hfact⟩
  have haux : ∀ n < problem.auxCount semantics, before.IsNew index (vars.aux[0]?.getD 0 + n) :=
    fun n hn => ⟨.aux n, time, hnew _ _ (by simp [Problem.blockEntries, hn]), hread.aux n hn⟩
  have himplication : ∀ id < problem.actionCount, ∀ rest,
      ∃ lit ∈ literal (vars.action id) false :: rest, before.IsNew index lit.natAbs := by
    intro id hid rest
    refine ⟨_, List.mem_cons_self, ?_⟩
    rw [natAbs_literal]
    exact haction id hid
  rw [clauses, List.forall_mem_append, List.forall_mem_append, List.forall_mem_append]
  refine ⟨⟨⟨?_, ?_⟩, ?_⟩, ?_⟩
  · intro lits hlits
    obtain ⟨id, action, fact, truth, hget, -, rfl⟩ := exists_of_mem_implications hlits
    exact himplication id (Problem.lt_actionCount hget) _
  · intro lits hlits
    obtain ⟨id, action, fact, truth, hget, -, rfl⟩ := exists_of_mem_implications hlits
    exact himplication id (Problem.lt_actionCount hget) _
  · intro lits hlits
    obtain ⟨fact, hfact, truth, ids, -, rfl⟩ := exists_of_mem_frame hlits
    refine ⟨_, List.mem_cons_of_mem _ List.mem_cons_self, ?_⟩
    rw [natAbs_literal]
    exact hafter fact hfact
  · intro lits hlits
    obtain ⟨lit, hlit, -⟩ := (linking_exclusion hindex hread lits hlits).two_variables
    exact ⟨lit, hlit, forall_var_exclusion hread haction haux lits hlits lit hlit⟩

end TransitionVars

section Run

variable {problem : Problem} {semantics : StepSemantics} {last time : Nat}
  {encoder next : Encoder problem semantics} {clauses delta : List Clause}

theorem not_mem_layout_of_mem_blockEntries {entity : Entity} {step : Nat}
    (h : (entity, step) ∈ problem.blockEntries semantics time) :
    (entity, step) ∉ layout problem semantics time := by
  simp only [Problem.blockEntries, List.mem_append, List.mem_map, Prod.mk.injEq] at h
  rcases h with (⟨_, hmem, rfl, rfl⟩ | ⟨_, hmem, rfl, rfl⟩) | ⟨_, hmem, rfl, rfl⟩
  · exact action_fresh hmem
  · intro hknown
    exact fact_fresh hmem (List.mem_append_left _ hknown)
  · intro hknown
    exact aux_fresh hmem (List.mem_append_left _ (List.mem_append_left _ hknown))

theorem Encoder.Extends.nodup {vars : TransitionVars} (h : encoder.Extends last vars delta next) :
    delta.Nodup :=
  nodup_of_clausesOfLiterals h.clauses_eq
    (TransitionVars.pairwise_apart_clauses h.encodedTo.consistent h.readFrom)

theorem Encoder.Extends.ofTransition {vars : TransitionVars} (hencoder : encoder.EncodedTo last)
    (h : encoder.Extends last vars delta next) :
    ∀ clause ∈ delta, clause.OfTransition encoder.index next.index last := by
  have hnew : ∀ entity step, (entity, step) ∈ problem.blockEntries semantics last →
      encoder.index.get? entity step = none := by
    intro entity step hentry
    rw [VariableIndex.get?_eq_none_iff hencoder.consistent, hencoder.entries_eq]
    exact not_mem_layout_of_mem_blockEntries hentry
  intro clause hclause
  obtain ⟨lits, hlits, hmem⟩ := exists_lits_of_mem_clauses h.clauses_eq hclause
  obtain ⟨lit, hlit, hisNew⟩ := TransitionVars.exists_isNew_of_mem_clauses h.encodedTo.consistent
    h.readFrom hnew lits hlits
  refine ⟨h.two_le_length clause hclause, fun lit hlit => ?_, lit, (hmem lit).mpr hlit, hisNew⟩
  exact TransitionVars.partOf_of_mem_clauses h.readFrom lits hlits lit ((hmem lit).mp hlit)

theorem VariableIndex.lt_of_isNew {before after : VariableIndex} {var : Nat}
    (hbefore : before.Consistent) (hafter : after.Consistent)
    (hgrows : before.entries <+: after.entries) (h : before.IsNew after var) : before.size < var := by
  obtain ⟨entity, step, hnone, hsome⟩ := h
  by_contra hle
  have hpos := (VariableIndex.get?_bounds hafter hsome).1
  obtain ⟨other, time, hget⟩ :=
    (VariableIndex.exists_get?_eq_iff hbefore).mpr ⟨hpos, Nat.le_of_not_lt hle⟩
  obtain ⟨rfl, rfl⟩ := VariableIndex.get?_injective hafter hsome
    (VariableIndex.get?_of_grows hbefore hafter hgrows hget)
  rw [hnone] at hget
  cases hget

/-- The new variable of a clause is higher than all that were mentioned before. -/
theorem Encoder.Extends.not_mem {vars : TransitionVars} {earlierVars : Nat → TransitionVars}
    (hencoder : encoder.Reads last clauses earlierVars) (h : encoder.Extends last vars delta next) :
    ∀ clause ∈ delta, clause ∉ clauses := by
  intro clause hclause hmem
  obtain ⟨lit, hlit, hnew⟩ := (h.ofTransition hencoder.encodedTo clause hclause).mentions_new
  have hlt := VariableIndex.lt_of_isNew hencoder.encodedTo.consistent h.encodedTo.consistent h.grows
    hnew
  exact absurd (hencoder.natAbs_le clause hmem lit hlit) (Nat.not_le_of_lt hlt)

theorem Clause.literals_eq_singleton {lit : Int} {clause : Clause}
    (h : Clause.ofLiterals [lit] = .ok clause) : clause.literals = [lit] := by
  unfold Clause.ofLiterals at h
  split at h
  · cases h
  · split at h
    · cases h
    · cases h
      simp [canonicalLiterals, sortUnique, dropRepeats]

theorem literals_of_encodeInit
    (h : (Encoder.init problem semantics).encodeStep 0 = .ok (clauses, encoder)) :
    List.Forall₂ (fun fact clause =>
      clause.literals = [literal (problem.factVariable semantics 0 fact) (problem.init.holds fact)])
      problem.factIds clauses := by
  have hall := clausesOfLiterals_eq_ok_iff.mp (clausesOfLiterals_initialLiterals h)
  rw [Problem.initialLiterals, List.forall₂_map_left_iff] at hall
  exact hall.imp fun _ _ => Clause.literals_eq_singleton

theorem nodup_of_encodeInit
    (h : (Encoder.init problem semantics).encodeStep 0 = .ok (clauses, encoder)) :
    clauses.Nodup := by
  apply nodup_of_clausesOfLiterals (clausesOfLiterals_initialLiterals h)
  rw [Problem.initialLiterals, List.pairwise_map]
  apply List.nodup_range.imp
  intro fact other hne
  refine apart_of_mem List.mem_cons_self ?_
  have hpos : 0 < problem.factVariable semantics 0 fact := Nat.succ_pos fact
  rw [List.mem_singleton, literal_eq_literal_iff hpos]
  exact fun h => hne (Nat.succ.inj h.1)

theorem nodup_of_encodeThrough
    (h : encodeThrough problem semantics last = .ok (clauses, encoder)) : clauses.Nodup := by
  induction last generalizing clauses encoder with
  | zero => exact nodup_of_encodeInit h
  | succ last ih =>
      obtain ⟨⟨earlier, before⟩, hbefore, h⟩ := except_bind_eq_ok h
      obtain ⟨⟨delta, next⟩, hnext, h⟩ := except_bind_eq_ok h
      cases h
      obtain ⟨vars, hreads⟩ := Encoder.exists_reads hbefore
      obtain ⟨lastVars, hlast⟩ := Encoder.exists_extends hreads.encodedTo hnext
      apply (ih hbefore).append hlast.nodup
      intro clause hearlier hdelta
      exact hlast.not_mem hreads clause hdelta hearlier

theorem filter_isUnit_of_encodeThrough
    (h : encodeThrough problem semantics last = .ok (clauses, encoder)) :
    ∃ initial first, (Encoder.init problem semantics).encodeStep 0 = .ok (initial, first) ∧
      clauses.filter Clause.isUnit = initial := by
  induction last generalizing clauses encoder with
  | zero =>
      refine ⟨clauses, encoder, h, List.filter_eq_self.mpr fun clause hclause => ?_⟩
      obtain ⟨fact, -, hliterals⟩ := exists_of_forall₂_right (literals_of_encodeInit h) hclause
      simp [Clause.isUnit, hliterals]
  | succ last ih =>
      obtain ⟨⟨earlier, before⟩, hbefore, h⟩ := except_bind_eq_ok h
      obtain ⟨⟨delta, next⟩, hnext, h⟩ := except_bind_eq_ok h
      cases h
      obtain ⟨initial, first, hinitial, hunits⟩ := ih hbefore
      obtain ⟨vars, hlast⟩ := Encoder.exists_extends (encodedTo_of_encodeThrough hbefore) hnext
      have hdelta : delta.filter Clause.isUnit = [] := by
        rw [List.filter_eq_nil_iff]
        intro clause hclause
        have := hlast.two_le_length clause hclause
        rw [Clause.isUnit, beq_iff_eq]
        omega
      refine ⟨initial, first, hinitial, ?_⟩
      rw [List.filter_append, hunits, hdelta, List.append_nil]

theorem exists_split_of_encodeThrough
    (h : encodeThrough problem semantics last = .ok (clauses, encoder)) (htime : time < last) :
    ∃ earlier before delta after later,
      encodeThrough problem semantics time = .ok (earlier, before) ∧
      before.encodeStep (time + 1) = .ok (delta, after) ∧
      clauses = earlier ++ delta ++ later ∧
      ∀ clause ∈ delta, clause ∉ earlier ∧ clause.OfTransition before.index after.index time := by
  induction last generalizing clauses encoder with
  | zero => exact absurd htime (Nat.not_lt_zero time)
  | succ last ih =>
      obtain ⟨⟨earlier, before⟩, hbefore, h⟩ := except_bind_eq_ok h
      obtain ⟨⟨delta, next⟩, hnext, h⟩ := except_bind_eq_ok h
      cases h
      rcases Nat.lt_succ_iff_lt_or_eq.mp htime with hlt | rfl
      · obtain ⟨first, middle, added, after, later, hfirst, hadded, rfl, hclauses⟩ := ih hbefore hlt
        refine ⟨first, middle, added, after, later ++ delta, hfirst, hadded, ?_, hclauses⟩
        rw [← List.append_assoc]
      · obtain ⟨vars, hreads⟩ := Encoder.exists_reads hbefore
        obtain ⟨lastVars, hlast⟩ := Encoder.exists_extends hreads.encodedTo hnext
        refine ⟨earlier, before, delta, encoder, [], hbefore, hnext, by simp, fun clause hclause => ?_⟩
        exact ⟨hlast.not_mem hreads clause hclause, hlast.ofTransition hreads.encodedTo clause hclause⟩

theorem ne_neg_of_units {initial : List Clause} {first : Encoder problem semantics}
    (hinitial : (Encoder.init problem semantics).encodeStep 0 = .ok (initial, first))
    {a b : Clause} (ha : a ∈ initial) (hb : b ∈ initial) {lit : Int} (hlit : a.literals = [lit]) :
    b.literals ≠ [-lit] := by
  intro hneg
  obtain ⟨fact, -, hfact⟩ := exists_of_forall₂_right (literals_of_encodeInit hinitial) ha
  obtain ⟨other, -, hother⟩ := exists_of_forall₂_right (literals_of_encodeInit hinitial) hb
  rw [hlit, List.singleton_inj] at hfact
  rw [hneg, List.singleton_inj, hfact] at hother
  have hvars := congrArg Int.natAbs hother
  rw [Int.natAbs_neg, natAbs_literal, natAbs_literal] at hvars
  have hpos : 0 < problem.factVariable semantics 0 fact := Nat.succ_pos fact
  obtain rfl := Nat.succ.inj hvars
  exact literal_ne_zero hpos (problem.init.holds fact) (by omega)

theorem formulaShape_of_encodeThrough
    (h : encodeThrough problem semantics last = .ok (clauses, encoder)) :
    FormulaShape problem semantics last clauses encoder.index := by
  obtain ⟨initial, first, hinitial, hunits⟩ := filter_isUnit_of_encodeThrough h
  refine ⟨nodup_of_encodeThrough h, ⟨initial, first, hinitial, hunits, ?_⟩,
    fun time => exists_split_of_encodeThrough h, fun a ha b hb lit hlit hneg => ?_⟩
  · have hget := (encodedTo_of_encodeThrough h).get?_eq
    have hall := (List.forall₂_and_left _ _).mpr
      ⟨fun fact => List.mem_range.mp, literals_of_encodeInit hinitial⟩
    apply hall.imp
    rintro fact clause ⟨hfact, hliterals⟩
    exact ⟨_, (hget _ _).trans (Problem.variableOf?_fact hfact (Nat.zero_le last)), hliterals⟩
  · have hunit : ∀ {clause : Clause} {lit : Int}, clause ∈ clauses → clause.literals = [lit] →
        clause ∈ initial := by
      intro clause lit hclause hliterals
      rw [← hunits, List.mem_filter]
      exact ⟨hclause, by simp [Clause.isUnit, hliterals]⟩
    exact ne_neg_of_units hinitial (hunit ha hlit) (hunit hb hneg) hlit hneg

/-- The formula of the steps 0 to `last` never has a clause twice.  Its unit clauses are those of the
initial state, so no two oppose each other, and every other clause links the two steps of its
transition and mentions a variable that is new with it.  No encode call refuses its own clauses. -/
theorem formula_without_repetition (problem : Problem) (semantics : StepSemantics) :
    (∀ step encoder, encoderBefore problem semantics step = .ok encoder → ∀ fault,
      encoder.encodeInit ≠ .error (.invalidClause fault) ∧
      ∀ requested, encoder.encodeTransition requested ≠ .error (.invalidClause fault)) ∧
    ∀ last clauses encoder, encodeThrough problem semantics last = .ok (clauses, encoder) →
      FormulaShape problem semantics last clauses encoder.index := by
  refine ⟨fun step encoder hencoder fault => ⟨fun h => ?_, fun requested h => ?_⟩,
    fun last clauses encoder => formulaShape_of_encodeThrough⟩
  · rcases error_of_encodeInit hencoder h with h | h
    · cases h
    · exact h
  · rcases error_of_encodeTransition hencoder h with h | h
    · cases h
    · exact h

theorem formula_without_repetition_lamps :
    ∃ clauses encoder, encodeThrough lamps .sequential 2 = .ok (clauses, encoder) ∧
      FormulaShape lamps .sequential 2 clauses encoder.index ∧
      (clauses.filter Clause.isUnit).map Clause.literals = [[-1], [-2]] ∧
      encoder.encodeTransition 4 ≠ .error (.invalidClause ⟨[1, -1], .bothPolarities⟩) := by
  obtain ⟨clauses, encoder, hencode⟩ := Encoder.exists_encodeThrough_eq_ok
    (show lamps.variablesThrough .sequential 2 ≤ variableRoom by decide)
  have hencoder : encoderBefore lamps .sequential 3 = .ok encoder := by
    rw [encoderBefore, hencode]
    rfl
  obtain ⟨hvalid, hshape⟩ := formula_without_repetition lamps .sequential
  refine ⟨clauses, encoder, hencode, hshape 2 clauses encoder hencode, ?_,
    (hvalid 3 encoder hencoder _).2 4⟩
  obtain ⟨initial, first, -, hunits, hall⟩ := (hshape 2 clauses encoder hencode).units
  have hall : List.Forall₂ _ [0, 1] initial := hall
  rw [hunits]
  obtain _ | ⟨⟨left, hleft, hfirst⟩, _ | ⟨⟨right, hright, hsecond⟩, _ | _⟩⟩ := hall
  rw [(encodedTo_of_encodeThrough hencode).get?_eq] at hleft hright
  cases hleft
  cases hright
  rw [List.map_cons, List.map_singleton, hfirst, hsecond]
  rfl

end Run

end BoundedPlanning
