import BoundedPlanning.Proofs.VariableIndex
import Mathlib.Data.List.Induction

namespace BoundedPlanning

namespace VariableIndex

/-- The index after a request, which changes nothing if it fails. -/
def request (index : VariableIndex) (entry : Entity × Nat) : VariableIndex :=
  match index.idOf entry.1 entry.2 with
  | .ok (_, next) => next
  | .error _ => index

def afterRequests (requests : List (Entity × Nat)) : VariableIndex :=
  requests.foldl request .empty

/-- The pair has a key when its entity's key and its step are numbers of 32 bits. -/
def HasKey (entry : Entity × Nat) : Prop := entry.1.key < bound32 ∧ entry.2 < bound32

instance (entry : Entity × Nat) : Decidable (HasKey entry) :=
  inferInstanceAs (Decidable (_ ∧ _))

/-- The pairs that have a key, in the order in which they were first asked for. -/
def firstRequests (requests : List (Entity × Nat)) : List (Entity × Nat) :=
  (requests.filter fun entry => decide (HasKey entry)).eraseDups

theorem afterRequests_concat (requests : List (Entity × Nat)) (entry : Entity × Nat) :
    afterRequests (requests ++ [entry]) = (afterRequests requests).request entry := by
  rw [afterRequests, List.foldl_append]
  rfl

theorem mem_firstRequests {requests : List (Entity × Nat)} {entry : Entity × Nat} :
    entry ∈ firstRequests requests ↔ entry ∈ requests ∧ HasKey entry := by
  simp [firstRequests]

theorem firstRequests_concat (requests : List (Entity × Nat)) (entry : Entity × Nat) :
    firstRequests (requests ++ [entry]) =
      if HasKey entry ∧ entry ∉ requests then firstRequests requests ++ [entry]
      else firstRequests requests := by
  by_cases hkey : HasKey entry
  · by_cases hmem : entry ∈ requests
    · simp [firstRequests, List.eraseDups_append, List.removeAll, hkey, hmem]
    · simp [firstRequests, List.eraseDups_append, List.eraseDups_cons, List.removeAll, hkey, hmem]
  · simp [firstRequests, hkey]

section Outcomes

variable {index next : VariableIndex} {entity : Entity} {step var : Nat}

theorem idOf_of_not_hasKey (hkey : ¬ HasKey (entity, step)) :
    index.idOf entity step = .error (.keyOverflow entity step) := by
  have hnone : entity.stepKey step = none := by
    rw [← Option.not_isSome_iff_eq_none, Entity.isSome_stepKey_iff]
    exact hkey
  simp only [idOf, hnone]

theorem idOf_of_new (hkey : HasKey (entity, step)) (hnew : index.get? entity step = none) :
    (index.size < maxVariable ∧ ∃ next, index.idOf entity step = .ok (index.size + 1, next)) ∨
      (maxVariable ≤ index.size ∧ index.idOf entity step = .error .idSpaceExhausted) := by
  obtain ⟨key, hsome⟩ := Option.isSome_iff_exists.mp (Entity.isSome_stepKey_iff.mpr hkey)
  have hid : index.ids[key]? = none := by
    simpa [get?, hsome] using hnew
  by_cases hroom : index.size + 1 ≤ maxVariable
  · left
    refine ⟨hroom, ⟨index.ids.insert key (index.size + 1), index.keys.push key⟩, ?_⟩
    simp only [idOf, hsome, hid, if_pos hroom]
  · right
    refine ⟨Nat.le_of_lt_succ (Nat.lt_of_not_le hroom), ?_⟩
    simp only [idOf, hsome, hid, if_neg hroom]

theorem request_of_ok (h : index.idOf entity step = .ok (var, next)) :
    index.request (entity, step) = next := by
  simp only [request, h]

theorem request_of_error {error : EncodingError} (h : index.idOf entity step = .error error) :
    index.request (entity, step) = index := by
  simp only [request, h]

/-- A request adds its pair as the last one if the pair is new and can be numbered. -/
theorem request_spec (hindex : index.Consistent) (entry : Entity × Nat) :
    (index.request entry).Consistent ∧
      (index.request entry).entries =
        if HasKey entry ∧ entry ∉ index.entries ∧ index.size < maxVariable then
          index.entries ++ [entry]
        else index.entries := by
  obtain ⟨entity, step⟩ := entry
  by_cases hkey : HasKey (entity, step)
  · cases hget : index.get? entity step with
    | some var =>
        have hmem := (exists_get?_iff_mem hindex).mp ⟨var, hget⟩
        rw [request_of_ok (idOf_of_get? hget), if_neg fun h => h.2.1 hmem]
        exact ⟨hindex, rfl⟩
    | none =>
        have hmem := (get?_eq_none_iff hindex).mp hget
        rcases idOf_of_new hkey hget with ⟨hroom, next, hnext⟩ | ⟨hfull, herror⟩
        · obtain ⟨-, hconsistent, hentries⟩ := idOf_of_get?_eq_none hindex hget hnext
          rw [request_of_ok hnext, if_pos ⟨hkey, hmem, hroom⟩]
          exact ⟨hconsistent, hentries⟩
        · rw [request_of_error herror, if_neg fun h => Nat.not_lt_of_le hfull h.2.2]
          exact ⟨hindex, rfl⟩
  · rw [request_of_error (idOf_of_not_hasKey hkey), if_neg fun h => hkey h.1]
    exact ⟨hindex, rfl⟩

theorem hasKey_of_mem_entries (hindex : index.Consistent) {entry : Entity × Nat}
    (h : entry ∈ index.entries) : HasKey entry := by
  obtain ⟨key, hmem, rfl⟩ := List.mem_map.mp h
  obtain ⟨entity, step, hkey⟩ := hindex.exists_of_mem key (Array.mem_toList_iff.mp hmem)
  rw [Entity.ofStepKey_of_stepKey hkey]
  exact Entity.isSome_stepKey_iff.mp (Option.isSome_of_eq_some hkey)

end Outcomes

section Runs

theorem consistent_afterRequests (requests : List (Entity × Nat)) :
    (afterRequests requests).Consistent := by
  induction requests using List.reverseRecOn with
  | nil => exact consistent_empty
  | append_singleton requests entry ih =>
      rw [afterRequests_concat]
      exact (request_spec ih entry).1

/-- The numbered pairs are the first so many that were asked for. -/
theorem entries_afterRequests (requests : List (Entity × Nat)) :
    (afterRequests requests).entries = (firstRequests requests).take maxVariable := by
  induction requests using List.reverseRecOn with
  | nil => rfl
  | append_singleton requests entry ih =>
      have hsize : (afterRequests requests).size =
          min maxVariable (firstRequests requests).length := by
        rw [← length_entries, ih, List.length_take]
      rw [afterRequests_concat, (request_spec (consistent_afterRequests requests) entry).2, ih,
        firstRequests_concat, hsize]
      -- Below the highest number there is, the pairs asked for are all numbered.
      rcases Nat.lt_or_ge (firstRequests requests).length maxVariable with hroom | hfull
      · rw [List.take_of_length_le hroom.le]
        by_cases hnew : HasKey entry ∧ entry ∉ requests
        · rw [if_pos hnew, List.take_of_length_le (by simp; omega), if_pos]
          exact ⟨hnew.1, fun h => hnew.2 (mem_firstRequests.mp h).1, by omega⟩
        · rw [if_neg hnew, List.take_of_length_le hroom.le, if_neg]
          exact fun h => hnew ⟨h.1, fun hmem => h.2.1 (mem_firstRequests.mpr ⟨hmem, h.1⟩)⟩
      · rw [if_neg fun h => absurd h.2.2 (by omega)]
        split
        · rw [List.take_append_of_le_length hfull]
        · rfl

theorem size_afterRequests (requests : List (Entity × Nat)) :
    (afterRequests requests).size = min maxVariable (firstRequests requests).length := by
  rw [← length_entries, entries_afterRequests, List.length_take]

theorem entries_prefix_afterRequests (requests rest : List (Entity × Nat)) :
    (afterRequests requests).entries <+: (afterRequests (requests ++ rest)).entries := by
  induction rest using List.reverseRecOn with
  | nil => simp only [List.append_nil, List.prefix_rfl]
  | append_singleton rest entry ih =>
      refine ih.trans ?_
      rw [← List.append_assoc, afterRequests_concat,
        (request_spec (consistent_afterRequests (requests ++ rest)) entry).2]
      split
      · exact List.prefix_append _ _
      · exact List.prefix_rfl

theorem get?_afterRequests_append {requests : List (Entity × Nat)} {entity : Entity}
    {step var : Nat} (h : (afterRequests requests).get? entity step = some var)
    (rest : List (Entity × Nat)) :
    (afterRequests (requests ++ rest)).get? entity step = some var :=
  get?_of_grows (consistent_afterRequests requests) (consistent_afterRequests (requests ++ rest))
    (entries_prefix_afterRequests requests rest) h

variable {requests : List (Entity × Nat)} {index : VariableIndex}

theorem entityOf_afterRequests (hindex : afterRequests requests = index) {var : Nat}
    {entry : Entity × Nat} :
    index.entityOf var = .ok entry ↔
      0 < var ∧ var ≤ maxVariable ∧ (firstRequests requests)[var - 1]? = some entry := by
  subst hindex
  rw [entityOf_eq_ok_iff (consistent_afterRequests requests), entries_afterRequests,
    List.getElem?_take]
  refine and_congr_right fun hpos => ?_
  by_cases hvar : var ≤ maxVariable
  · rw [if_pos (by omega), and_iff_right hvar]
  · rw [if_neg (by omega)]
    simp [hvar]

/-- A request fails for a pair without a key, or for a new one when the numbers are used up. -/
theorem idOf_eq_error_iff {entity : Entity} {step : Nat} {error : EncodingError} :
    index.idOf entity step = .error error ↔
      (error = .keyOverflow entity step ∧ ¬ HasKey (entity, step)) ∨
      (error = .idSpaceExhausted ∧ HasKey (entity, step) ∧ index.get? entity step = none ∧
        maxVariable ≤ index.size) := by
  by_cases hkey : HasKey (entity, step)
  · cases hget : index.get? entity step with
    | some var => simp [idOf_of_get? hget, hkey]
    | none =>
        rcases idOf_of_new hkey hget with ⟨hroom, next, hnext⟩ | ⟨hfull, herror⟩
        · simp [hnext, hkey, Nat.not_le_of_lt hroom]
        · simp [herror, hkey, hfull, eq_comm]
  · simp [idOf_of_not_hasKey hkey, hkey, eq_comm]

/-- After any requests, failing ones included, the variables stand one after the other for the
pairs with a key in the order of their first requests.  Looking up a pair and looking up a variable
are inverse to each other, and what was handed out stays.  A request fails without a change, and
only for a pair without a key or when the numbers are used up. -/
theorem numbering_bijective (hindex : afterRequests requests = index) :
    index.size = min maxVariable (firstRequests requests).length ∧
    (∀ var entry, index.entityOf var = .ok entry ↔
      0 < var ∧ var ≤ maxVariable ∧ (firstRequests requests)[var - 1]? = some entry) ∧
    (∀ entity step var,
      index.get? entity step = some var ↔ index.entityOf var = .ok (entity, step)) ∧
    (∀ var, (∃ entity step, index.get? entity step = some var) ↔ 0 < var ∧ var ≤ index.size) ∧
    (∀ var error, index.entityOf var = .error error ↔
      error = .unknownVariable var ∧ (var = 0 ∨ index.size < var)) ∧
    (∀ entity step var rest later, index.get? entity step = some var →
      afterRequests (requests ++ rest) = later →
        later.get? entity step = some var ∧ later.idOf entity step = .ok (var, later)) ∧
    (∀ entity step, step < bound32 →
      (index.idOf entity step = .error (.keyOverflow entity step) ↔ bound32 ≤ entity.key)) ∧
    (∀ entity step error, index.idOf entity step = .error error →
      afterRequests (requests ++ [(entity, step)]) = index ∧
        (error = .keyOverflow entity step ∨
          error = .idSpaceExhausted ∧ index.get? entity step = none ∧ index.size = maxVariable)) ∧
    ∀ entity step var next, index.idOf entity step = .ok (var, next) →
      afterRequests (requests ++ [(entity, step)]) = next ∧ next.get? entity step = some var ∧
        (index.get? entity step = none → var = index.size + 1) := by
  have hconsistent : index.Consistent := hindex ▸ consistent_afterRequests requests
  have hsize : index.size = min maxVariable (firstRequests requests).length :=
    hindex ▸ size_afterRequests requests
  refine ⟨hsize, fun var entry => entityOf_afterRequests hindex, ?_, ?_, ?_, ?_, ?_, ?_, ?_⟩
  · exact fun entity step var => (entityOf_eq_ok_iff_get? hconsistent).symm
  · exact fun var => exists_get?_eq_iff hconsistent
  · exact fun var error => entityOf_eq_error_iff hconsistent
  · rintro entity step var rest later hget rfl
    have hlater := get?_afterRequests_append (hindex ▸ hget) rest
    exact ⟨hlater, idOf_of_get? hlater⟩
  · intro entity step hstep
    rw [idOf_eq_error_iff]
    simp [HasKey, hstep]
  · intro entity step error herror
    rw [afterRequests_concat, hindex, request_of_error herror]
    refine ⟨rfl, ?_⟩
    rcases idOf_eq_error_iff.mp herror with ⟨rfl, -⟩ | ⟨rfl, -, hnew, hfull⟩
    · exact Or.inl rfl
    · exact Or.inr ⟨rfl, hnew, by omega⟩
  · intro entity step var next hnext
    rw [afterRequests_concat, hindex, request_of_ok hnext]
    refine ⟨rfl, (get?_of_idOf hconsistent hnext).2.2, fun hnew => ?_⟩
    exact (idOf_of_get?_eq_none hconsistent hnew hnext).1

def fewRequests : List (Entity × Nat) :=
  [(.fact 3, 2), (.action 3, 2), (.fact 3, 2), (.aux 1431655765, 0), (.aux 3, 4294967295)]

theorem numbering_bijective_fewRequests :
    (afterRequests fewRequests).size = 3 ∧
    (afterRequests fewRequests).entityOf 3 = .ok (.aux 3, 4294967295) ∧
    (afterRequests fewRequests).get? (.action 3) 2 = some 2 ∧
    (afterRequests fewRequests).entityOf 4 = .error (.unknownVariable 4) ∧
    (afterRequests fewRequests).idOf (.aux 1431655765) 0 =
      .error (.keyOverflow (.aux 1431655765) 0) := by
  obtain ⟨hsize, hentityOf, hget, -, herror, -, hoverflow, -, -⟩ :=
    numbering_bijective (show afterRequests fewRequests = afterRequests fewRequests from rfl)
  have hthree : (afterRequests fewRequests).size = 3 := by
    rw [hsize]
    decide
  refine ⟨hthree, (hentityOf 3 _).mpr (by decide), ?_, (herror 4 _).mpr ⟨rfl, Or.inr ?_⟩,
    (hoverflow _ 0 (by decide)).mpr (by decide)⟩
  · exact (hget _ _ _).mpr ((hentityOf 2 _).mpr (by decide))
  · omega

end Runs

end VariableIndex

end BoundedPlanning
