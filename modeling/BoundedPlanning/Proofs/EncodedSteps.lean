import BoundedPlanning.Proofs.StepCounter
import BoundedPlanning.Proofs.WellFormedClauses

namespace BoundedPlanning

namespace Encoder

variable {problem : Problem} {semantics : StepSemantics} {last : Nat}
  {encoder next : Encoder problem semantics} {clauses delta : List Clause} {value : Valuation}

/-- The initial clauses are made from the variables of the facts at step 0. -/
theorem exists_vars_of_encodeInit
    (h : (Encoder.init problem semantics).encodeStep 0 = .ok (clauses, next)) :
    ∃ vars : List Nat, vars.length = problem.factCount ∧
      (∀ fact var : Nat, vars[fact]? = some var ↔
        fact < problem.factCount ∧ next.index.get? (.fact fact) 0 = some var) ∧
      clausesOfLiterals (vars.zipIdx.map fun (var, fact) =>
        [literal var (problem.init.holds fact)]) = .ok clauses := by
  rw [encodeStep_zero] at h
  simp only [encodeInit, init, ne_eq, not_true_eq_false, if_false] at h
  obtain ⟨⟨vars, index⟩, hvars, h⟩ := except_bind_eq_ok h
  obtain ⟨found, hclauses, h⟩ := except_bind_eq_ok h
  cases h
  have hgiven := VariableIndex.handsOut_idsOf VariableIndex.consistent_empty hvars
  have hlength : vars.length = problem.factCount := by
    simpa [Problem.factIds] using hgiven.length_eq
  refine ⟨vars, hlength, fun fact var => ?_, hclauses⟩
  have hget := congrArg (·[fact]?) hgiven.vars_eq
  simp only [List.getElem?_map, Problem.factIds] at hget
  by_cases hfact : fact < problem.factCount
  · simp only [List.getElem?_range hfact, Option.map_some] at hget
    rw [and_iff_right hfact]
    cases hlookup : vars[fact]? with
    | none => simp [hlookup] at hget
    | some other =>
        rw [hlookup, Option.map_some, Option.some.injEq] at hget
        rw [← hget]
  · simp [hfact, List.getElem?_eq_none (show vars.length ≤ fact by omega)]

theorem satisfies_encodeInit_iff
    (h : (Encoder.init problem semantics).encodeStep 0 = .ok (clauses, next)) :
    (∀ clause ∈ clauses, value.Satisfies clause.literals) ↔
      ∀ fact < problem.factCount,
        next.index.valueOf value (.fact fact) 0 = some (problem.init.holds fact) := by
  have hencoded := encodedTo_of_encodeInit h
  obtain ⟨vars, -, hvar, hclauses⟩ := exists_vars_of_encodeInit h
  rw [satisfies_clausesOfLiterals_iff hclauses]
  simp only [List.forall_mem_map, Prod.forall, List.mk_mem_zipIdx_iff_getElem?, hvar]
  constructor
  · intro h fact hfact
    obtain ⟨var, hget⟩ := (VariableIndex.exists_get?_iff_mem hencoded.consistent).mpr
      (hencoded.entries_eq ▸ fact_mem_layout.mpr ⟨hfact, le_rfl⟩)
    have hsatisfied := h var fact ⟨hfact, hget⟩
    rw [Valuation.satisfies_cons_literal
      (VariableIndex.get?_bounds hencoded.consistent hget).1] at hsatisfied
    rw [VariableIndex.valueOf_of_get? hget]
    exact hsatisfied.resolve_right Valuation.not_satisfies_nil
  · rintro h var fact ⟨hfact, hget⟩
    have hvalue := h fact hfact
    rw [VariableIndex.valueOf_of_get? hget] at hvalue
    rw [Valuation.satisfies_cons_literal
      (VariableIndex.get?_bounds hencoded.consistent hget).1]
    exact Or.inl hvalue

theorem natAbs_le_of_encodeInit
    (h : (Encoder.init problem semantics).encodeStep 0 = .ok (clauses, next)) :
    ∀ clause ∈ clauses, ∀ lit ∈ clause.literals, lit.natAbs ≤ next.index.size := by
  intro clause hclause lit hlit
  obtain ⟨vars, -, hvar, hclauses⟩ := exists_vars_of_encodeInit h
  obtain ⟨lits, hlits, hmem⟩ := exists_lits_of_mem_clauses hclauses hclause
  obtain ⟨⟨var, fact⟩, hnumbered, rfl⟩ := List.mem_map.mp hlits
  have hget := ((hvar fact var).mp (List.mk_mem_zipIdx_iff_getElem?.mp hnumbered)).2
  rw [List.mem_singleton.mp ((hmem lit).mp hlit), natAbs_literal]
  exact (VariableIndex.get?_bounds (encodedTo_of_encodeInit h).consistent hget).2

/-- One more step appends a transition to what was encoded. -/
structure Extends (encoder : Encoder problem semantics) (last : Nat) (vars : TransitionVars)
    (delta : List Clause) (next : Encoder problem semantics) : Prop where
  encodedTo : next.EncodedTo (last + 1)
  grows : encoder.index.entries <+: next.index.entries
  readFrom : vars.ReadFrom next.index problem semantics last
  clauses_eq : clausesOfLiterals
    (vars.clauses problem semantics (TransitionScheme.of problem semantics)) = .ok delta

theorem exists_extends (hencoder : encoder.EncodedTo last)
    (h : encoder.encodeStep (last + 1) = .ok (delta, next)) :
    ∃ vars, encoder.Extends last vars delta next := by
  rw [hencoder.encodeStep_succ] at h
  obtain ⟨⟨vars, index⟩, hvars, h⟩ := except_bind_eq_ok h
  obtain ⟨found, hclauses, h⟩ := except_bind_eq_ok h
  cases h
  obtain ⟨hconsistent, hentries, hread⟩ := readFrom_of_transitionVars hencoder hvars
  rw [encoder.scheme_eq] at hclauses
  refine ⟨vars, ⟨hconsistent, hentries, (succ_toUInt32 (last + 1)).symm⟩, ?_, hread, hclauses⟩
  rw [hencoder.entries_eq]
  exact hentries ▸ layout_prefix_succ

/-- The clauses of the steps 0 to `last` are the initial state and, for each time before `last`,
the transition that starts then. -/
structure Reads (encoder : Encoder problem semantics) (last : Nat) (clauses : List Clause)
    (vars : Nat → TransitionVars) : Prop where
  encodedTo : encoder.EncodedTo last
  readFrom : ∀ time < last, (vars time).ReadFrom encoder.index problem semantics time
  satisfied_iff : ∀ value : Valuation,
    (∀ clause ∈ clauses, value.Satisfies clause.literals) ↔
      (∀ fact < problem.factCount,
        encoder.index.valueOf value (.fact fact) 0 = some (problem.init.holds fact)) ∧
      ∀ time < last, ∀ lits ∈ (vars time).clauses problem semantics
        (TransitionScheme.of problem semantics), value.Satisfies lits
  natAbs_le : ∀ clause ∈ clauses, ∀ lit ∈ clause.literals, lit.natAbs ≤ encoder.index.size

theorem Extends.natAbs_le {vars : TransitionVars} (h : encoder.Extends last vars delta next) :
    ∀ clause ∈ delta, ∀ lit ∈ clause.literals, lit.natAbs ≤ next.index.size := by
  intro clause hclause lit hlit
  obtain ⟨lits, hlits, hmem⟩ := exists_lits_of_mem_clauses h.clauses_eq hclause
  exact (TransitionVars.linking_clauses h.encodedTo.consistent h.readFrom lits hlits).natAbs_le
    lit ((hmem lit).mp hlit)

theorem Extends.two_le_length {vars : TransitionVars} (h : encoder.Extends last vars delta next) :
    ∀ clause ∈ delta, 2 ≤ clause.literals.length := by
  intro clause hclause
  obtain ⟨lits, hlits, hmem⟩ := exists_lits_of_mem_clauses h.clauses_eq hclause
  exact (TransitionVars.linking_clauses h.encodedTo.consistent h.readFrom lits hlits).two_le_length
    hmem

theorem Extends.size_le {vars : TransitionVars} (h : encoder.Extends last vars delta next) :
    encoder.index.size ≤ next.index.size := by
  rw [← VariableIndex.length_entries, ← VariableIndex.length_entries]
  exact h.grows.length_le

theorem exists_reads (h : encodeThrough problem semantics last = .ok (clauses, encoder)) :
    ∃ vars, encoder.Reads last clauses vars := by
  induction last generalizing clauses encoder with
  | zero =>
      refine ⟨fun _ => ⟨#[], #[], #[], #[]⟩, encodedTo_of_encodeInit h, by simp, fun value => ?_,
        natAbs_le_of_encodeInit h⟩
      rw [satisfies_encodeInit_iff h]
      simp
  | succ last ih =>
      obtain ⟨⟨earlier, before⟩, hbefore, h⟩ := except_bind_eq_ok h
      obtain ⟨⟨delta, next⟩, hnext, h⟩ := except_bind_eq_ok h
      cases h
      obtain ⟨vars, hvars⟩ := ih hbefore
      obtain ⟨lastVars, hlast⟩ := exists_extends hvars.encodedTo hnext
      have hconsistent := hvars.encodedTo.consistent
      have hnextConsistent := hlast.encodedTo.consistent
      refine ⟨fun time => if time = last then lastVars else vars time, hlast.encodedTo, ?_, ?_, ?_⟩
      · intro time htime
        by_cases heq : time = last
        · rw [if_pos heq, heq]
          exact hlast.readFrom
        · rw [if_neg heq]
          exact (hvars.readFrom time (by omega)).of_grows hconsistent hnextConsistent hlast.grows
      · intro value
        have hinit : ∀ fact < problem.factCount,
            before.index.valueOf value (.fact fact) 0 =
              encoder.index.valueOf value (.fact fact) 0 := by
          intro fact hfact
          obtain ⟨var, hget⟩ := (VariableIndex.exists_get?_iff_mem hconsistent).mpr
            (hvars.encodedTo.entries_eq ▸ fact_mem_layout.mpr ⟨hfact, Nat.zero_le _⟩)
          rw [VariableIndex.valueOf_of_get? hget, VariableIndex.valueOf_of_get?
            (VariableIndex.get?_of_grows hconsistent hnextConsistent hlast.grows hget)]
        rw [List.forall_mem_append, hvars.satisfied_iff,
          satisfies_clausesOfLiterals_iff hlast.clauses_eq, and_assoc]
        refine and_congr (forall₂_congr fun fact hfact => by rw [hinit fact hfact]) ?_
        constructor
        · rintro ⟨hearlier, hdelta⟩ time htime
          by_cases heq : time = last
          · rw [if_pos heq]
            exact hdelta
          · rw [if_neg heq]
            exact hearlier time (by omega)
        · intro hall
          constructor
          · intro time htime
            have := hall time (by omega)
            rwa [if_neg (by omega)] at this
          · have := hall last (Nat.lt_succ_self last)
            rwa [if_pos rfl] at this
      · rw [List.forall_mem_append]
        refine ⟨fun clause hclause lit hlit => ?_, hlast.natAbs_le⟩
        exact (hvars.natAbs_le clause hclause lit hlit).trans hlast.size_le

end Encoder

theorem encodedTo_of_encodeThrough {problem : Problem} {semantics : StepSemantics} {last : Nat}
    {clauses : List Clause} {encoder : Encoder problem semantics}
    (h : encodeThrough problem semantics last = .ok (clauses, encoder)) :
    encoder.EncodedTo last := by
  obtain ⟨vars, hreads⟩ := Encoder.exists_reads h
  exact hreads.encodedTo

end BoundedPlanning
