import BoundedPlanning.Encoding.VariableIndex
import BoundedPlanning.Proofs.Except
import BoundedPlanning.Proofs.Pairing
import Mathlib.Data.List.Nodup

namespace BoundedPlanning

namespace VariableIndex

/-- What the variables 1, 2, 3, … stand for. -/
def entries (index : VariableIndex) : List (Entity × Nat) :=
  index.keys.toList.map Entity.ofStepKey

/-- Both tables hold the same keys, each key is that of an entity at a step, and there are no more
keys than numbers. -/
structure Consistent (index : VariableIndex) : Prop where
  ids_iff : ∀ key id, index.ids[key]? = some id ↔ 0 < id ∧ index.keys[id - 1]? = some key
  exists_of_mem : ∀ key ∈ index.keys, ∃ entity step, Entity.stepKey entity step = some key
  size_le : index.size ≤ maxVariable

@[simp] theorem length_entries (index : VariableIndex) : index.entries.length = index.size := by
  simp [entries, size]

@[simp] theorem entries_empty : VariableIndex.empty.entries = [] := by
  rfl

theorem consistent_empty : VariableIndex.empty.Consistent := by
  refine ⟨fun key id => ?_, fun key hkey => ?_, Nat.zero_le _⟩
  · simp [VariableIndex.empty]
  · simp [VariableIndex.empty] at hkey

theorem entityOf_eq_ok_iff {index : VariableIndex} (hindex : index.Consistent) {var : Nat}
    {entry : Entity × Nat} :
    index.entityOf var = .ok entry ↔ 0 < var ∧ index.entries[var - 1]? = some entry := by
  unfold entityOf
  by_cases hvar : var = 0
  · simp [hvar]
  · rw [if_neg hvar]
    simp only [entries, List.getElem?_map, Array.getElem?_toList]
    cases hget : index.keys[var - 1]? with
    | none => simp
    | some key =>
        obtain ⟨entity, step, hkey⟩ := hindex.exists_of_mem key (Array.mem_of_getElem? hget)
        simp only [Option.bind_some, Entity.ofStepKey?_of_stepKey hkey, Option.map_some,
          Entity.ofStepKey_of_stepKey hkey, Except.ok.injEq, Option.some.injEq]
        exact ⟨fun h => ⟨by omega, h⟩, fun h => h.2⟩

theorem error_of_entityOf {index : VariableIndex} {var : Nat} {error : EncodingError}
    (h : index.entityOf var = .error error) : error = .unknownVariable var := by
  unfold entityOf at h
  split at h
  · exact (Except.error.inj h).symm
  · split at h <;> cases h
    rfl

variable {index next : VariableIndex}

theorem get?_eq_some_iff (hindex : index.Consistent) {entity : Entity} {step var : Nat} :
    index.get? entity step = some var ↔
      0 < var ∧ index.entries[var - 1]? = some (entity, step) := by
  simp only [get?, entries, List.getElem?_map, Array.getElem?_toList, Option.bind_eq_some_iff,
    Option.map_eq_some_iff]
  constructor
  · rintro ⟨key, hkey, hid⟩
    obtain ⟨hvar, hget⟩ := (hindex.ids_iff key var).mp hid
    exact ⟨hvar, key, hget, Entity.ofStepKey_of_stepKey hkey⟩
  · rintro ⟨hvar, key, hget, hentry⟩
    obtain ⟨entity', step', hkey⟩ := hindex.exists_of_mem key (Array.mem_of_getElem? hget)
    rw [Entity.ofStepKey_of_stepKey hkey] at hentry
    cases hentry
    exact ⟨key, hkey, (hindex.ids_iff key var).mpr ⟨hvar, hget⟩⟩

theorem entityOf_eq_ok_iff_get? (hindex : index.Consistent) {entity : Entity} {step var : Nat} :
    index.entityOf var = .ok (entity, step) ↔ index.get? entity step = some var := by
  rw [entityOf_eq_ok_iff hindex, get?_eq_some_iff hindex]

theorem exists_get?_iff_mem (hindex : index.Consistent) {entity : Entity} {step : Nat} :
    (∃ var, index.get? entity step = some var) ↔ (entity, step) ∈ index.entries := by
  simp only [get?_eq_some_iff hindex]
  constructor
  · rintro ⟨var, _, hget⟩
    exact List.mem_of_getElem? hget
  · intro hmem
    obtain ⟨i, hi⟩ := List.mem_iff_getElem?.mp hmem
    exact ⟨i + 1, Nat.succ_pos i, by simpa using hi⟩

theorem get?_eq_none_iff (hindex : index.Consistent) {entity : Entity} {step : Nat} :
    index.get? entity step = none ↔ (entity, step) ∉ index.entries := by
  rw [← exists_get?_iff_mem hindex, ← Option.not_isSome_iff_eq_none, Option.isSome_iff_exists]

theorem get?_bounds (hindex : index.Consistent) {entity : Entity} {step var : Nat}
    (h : index.get? entity step = some var) : 0 < var ∧ var ≤ index.size := by
  obtain ⟨hpos, hget⟩ := (get?_eq_some_iff hindex).mp h
  have hlt := (List.getElem?_eq_some_iff.mp hget).1
  rw [length_entries] at hlt
  exact ⟨hpos, by omega⟩

theorem exists_get?_eq_iff (hindex : index.Consistent) {var : Nat} :
    (∃ entity step, index.get? entity step = some var) ↔ 0 < var ∧ var ≤ index.size := by
  constructor
  · rintro ⟨entity, step, hget⟩
    exact get?_bounds hindex hget
  · rintro ⟨hpos, hle⟩
    have hlt : var - 1 < index.entries.length := by
      rw [length_entries]
      omega
    obtain ⟨entity, step⟩ := index.entries[var - 1]
    exact ⟨_, _, (get?_eq_some_iff hindex).mpr ⟨hpos, List.getElem?_eq_getElem hlt⟩⟩

theorem exists_entityOf_iff (hindex : index.Consistent) {var : Nat} :
    (∃ entry, index.entityOf var = .ok entry) ↔ 0 < var ∧ var ≤ index.size := by
  rw [← exists_get?_eq_iff hindex]
  simp only [Prod.exists, entityOf_eq_ok_iff_get? hindex]

theorem entityOf_eq_error_iff (hindex : index.Consistent) {var : Nat} {error : EncodingError} :
    index.entityOf var = .error error ↔
      error = .unknownVariable var ∧ (var = 0 ∨ index.size < var) := by
  have hknown : (∃ entry, index.entityOf var = .ok entry) ↔ 0 < var ∧ var ≤ index.size :=
    exists_entityOf_iff hindex
  constructor
  · intro h
    refine ⟨error_of_entityOf h, ?_⟩
    by_contra hrange
    obtain ⟨entry, hentry⟩ := hknown.mpr (by omega)
    rw [h] at hentry
    cases hentry
  · rintro ⟨rfl, hrange⟩
    cases hresult : index.entityOf var with
    | ok entry =>
        have := hknown.mp ⟨entry, hresult⟩
        omega
    | error other => rw [error_of_entityOf hresult]

theorem get?_injective (hindex : index.Consistent) {entity entity' : Entity}
    {step step' var : Nat} (h : index.get? entity step = some var)
    (h' : index.get? entity' step' = some var) : entity = entity' ∧ step = step' := by
  have hentry := ((get?_eq_some_iff hindex).mp h).2
  rw [((get?_eq_some_iff hindex).mp h').2] at hentry
  cases hentry
  exact ⟨rfl, rfl⟩

theorem get?_of_grows (hindex : index.Consistent) (hnext : next.Consistent)
    (hgrows : index.entries <+: next.entries) {entity : Entity} {step var : Nat}
    (h : index.get? entity step = some var) : next.get? entity step = some var := by
  obtain ⟨hpos, hget⟩ := (get?_eq_some_iff hindex).mp h
  obtain ⟨rest, hrest⟩ := hgrows
  refine (get?_eq_some_iff hnext).mpr ⟨hpos, ?_⟩
  rw [← hrest, List.getElem?_append_left (List.getElem?_eq_some_iff.mp hget).1, hget]

/-- The index after the entity at the step, whose key is `key`, was given the next number. -/
theorem consistent_push (hindex : index.Consistent) {entity : Entity} {step key : Nat}
    (hkey : entity.stepKey step = some key) (hnew : index.ids[key]? = none)
    (hroom : index.size + 1 ≤ maxVariable) :
    (VariableIndex.mk (index.ids.insert key (index.size + 1)) (index.keys.push key)).Consistent := by
  refine ⟨fun other id => ?_, fun other hmem => ?_, ?_⟩
  · rw [Std.HashMap.getElem?_insert]
    by_cases hother : key = other
    · subst other
      rw [if_pos (by simp), Option.some.injEq]
      constructor
      · rintro rfl
        refine ⟨Nat.succ_pos _, ?_⟩
        simp [size]
      · rintro ⟨hpos, hget⟩
        rw [Array.getElem?_push] at hget
        split at hget
        · simp only [size]
          omega
        · rw [(hindex.ids_iff key id).mpr ⟨hpos, hget⟩] at hnew
          cases hnew
    · rw [if_neg (by simpa using hother), hindex.ids_iff other id, Array.getElem?_push]
      split
      · rename_i hlast
        simp [hlast, hother]
      · rfl
  · rcases Array.mem_push.mp hmem with hmem | rfl
    · exact hindex.exists_of_mem other hmem
    · exact ⟨entity, step, hkey⟩
  · rw [size, Array.size_push]
    exact hroom

theorem idOf_of_get? {entity : Entity} {step var : Nat}
    (h : index.get? entity step = some var) : index.idOf entity step = .ok (var, index) := by
  obtain ⟨key, hkey, hid⟩ := Option.bind_eq_some_iff.mp h
  simp [idOf, hkey, hid]

theorem idOf_of_get?_eq_none (hindex : index.Consistent) {entity : Entity} {step var : Nat}
    (hnew : index.get? entity step = none) (h : index.idOf entity step = .ok (var, next)) :
    var = index.size + 1 ∧ next.Consistent ∧
      next.entries = index.entries ++ [(entity, step)] := by
  unfold idOf at h
  split at h
  · cases h
  · rename_i key hkey
    have hid : index.ids[key]? = none := by
      simpa [get?, hkey] using hnew
    simp only [hid] at h
    split at h
    · rename_i hroom
      cases h
      refine ⟨rfl, consistent_push hindex hkey hid hroom, ?_⟩
      simp [entries, Entity.ofStepKey_of_stepKey hkey]
    · cases h

theorem exists_idOf_eq_ok {entity : Entity} {step : Nat}
    (hkey : (entity.stepKey step).isSome = true) (hsize : index.size < maxVariable) :
    ∃ var next, index.idOf entity step = .ok (var, next) := by
  obtain ⟨key, hkey⟩ := Option.isSome_iff_exists.mp hkey
  cases hid : index.ids[key]? with
  | some var => exact ⟨var, index, by simp [idOf, hkey, hid]⟩
  | none =>
      have hfits : index.size + 1 ≤ maxVariable := hsize
      refine ⟨index.size + 1,
        ⟨index.ids.insert key (index.size + 1), index.keys.push key⟩, ?_⟩
      simp only [idOf, hkey, hid, if_pos hfits]

/-- What handing out variables to several entities at one step gives. -/
structure HandsOut (index : VariableIndex) (entities : List Entity) (step : Nat)
    (vars : List Nat) (next : VariableIndex) : Prop where
  consistent : next.Consistent
  grows : index.entries <+: next.entries
  vars_eq : vars.map some = entities.map (next.get? · step)

theorem get?_of_idOf (hindex : index.Consistent) {entity : Entity} {step var : Nat}
    (h : index.idOf entity step = .ok (var, next)) :
    next.Consistent ∧ index.entries <+: next.entries ∧ next.get? entity step = some var := by
  cases hget : index.get? entity step with
  | some other =>
      rw [idOf_of_get? hget] at h
      cases h
      exact ⟨hindex, List.prefix_rfl, hget⟩
  | none =>
      obtain ⟨rfl, hnext, hentries⟩ := idOf_of_get?_eq_none hindex hget h
      refine ⟨hnext, hentries ▸ List.prefix_append _ _, ?_⟩
      refine (get?_eq_some_iff hnext).mpr ⟨Nat.succ_pos _, ?_⟩
      simp [hentries]

theorem handsOut_idsOf (hindex : index.Consistent) {entities : List Entity} {step : Nat}
    {vars : List Nat} (h : index.idsOf entities step = .ok (vars, next)) :
    index.HandsOut entities step vars next := by
  induction entities generalizing index vars with
  | nil =>
      cases h
      exact ⟨hindex, List.prefix_rfl, rfl⟩
  | cons entity rest ih =>
      obtain ⟨⟨var, middle⟩, hfirst, h⟩ := except_bind_eq_ok h
      obtain ⟨⟨others, last⟩, hrest, h⟩ := except_bind_eq_ok h
      cases h
      obtain ⟨hmiddle, hgrows, hget⟩ := get?_of_idOf hindex hfirst
      have hothers := ih hmiddle hrest
      refine ⟨hothers.consistent, hgrows.trans hothers.grows, ?_⟩
      rw [List.map_cons, List.map_cons, hothers.vars_eq,
        get?_of_grows hmiddle hothers.consistent hothers.grows hget]

theorem idsOf_of_known {entities : List Entity} {step : Nat} (hindex : index.Consistent)
    (hknown : ∀ entity ∈ entities, (entity, step) ∈ index.entries) :
    ∃ vars, index.idsOf entities step = .ok (vars, index) := by
  induction entities with
  | nil => exact ⟨[], rfl⟩
  | cons entity rest ih =>
      obtain ⟨var, hvar⟩ := (exists_get?_iff_mem hindex).mpr (hknown entity (by simp))
      obtain ⟨vars, hvars⟩ := ih fun other hother => hknown other (by simp [hother])
      refine ⟨var :: vars, ?_⟩
      simp only [idsOf, idOf_of_get? hvar, hvars, bind, Except.bind, pure, Except.pure]

theorem entries_of_idsOf_fresh (hindex : index.Consistent) {entities : List Entity} {step : Nat}
    {vars : List Nat} (hnodup : entities.Nodup)
    (hfresh : ∀ entity ∈ entities, (entity, step) ∉ index.entries)
    (h : index.idsOf entities step = .ok (vars, next)) :
    next.entries = index.entries ++ entities.map (·, step) ∧
      vars = List.range' (index.size + 1) entities.length := by
  induction entities generalizing index vars with
  | nil =>
      cases h
      simp
  | cons entity rest ih =>
      obtain ⟨⟨var, middle⟩, hfirst, h⟩ := except_bind_eq_ok h
      obtain ⟨⟨others, last⟩, hrest, h⟩ := except_bind_eq_ok h
      cases h
      have hnew := (get?_eq_none_iff hindex).mpr (hfresh entity (by simp))
      obtain ⟨rfl, hmiddle, hentries⟩ := idOf_of_get?_eq_none hindex hnew hfirst
      have hsize : middle.size = index.size + 1 := by
        rw [← length_entries, hentries]
        simp
      obtain ⟨hnext, rfl⟩ := ih hmiddle hnodup.of_cons (fun other hother => by
        have hne : other ≠ entity := by
          rintro rfl
          exact (List.nodup_cons.mp hnodup).1 hother
        simpa [hentries, hne] using hfresh other (by simp [hother])) hrest
      constructor
      · rw [hnext, hentries]
        simp
      · rw [hsize, List.length_cons, List.range'_succ]

theorem size_le_of_idOf (hindex : index.Consistent) {entity : Entity} {step var : Nat}
    (h : index.idOf entity step = .ok (var, next)) : next.size ≤ index.size + 1 := by
  cases hget : index.get? entity step with
  | some other =>
      rw [idOf_of_get? hget] at h
      cases h
      exact Nat.le_succ _
  | none =>
      obtain ⟨-, -, hentries⟩ := idOf_of_get?_eq_none hindex hget h
      rw [← length_entries, hentries]
      simp

theorem size_le_of_idsOf (hindex : index.Consistent) {entities : List Entity} {step : Nat}
    {vars : List Nat} (h : index.idsOf entities step = .ok (vars, next)) :
    next.size ≤ index.size + entities.length := by
  induction entities generalizing index vars with
  | nil =>
      cases h
      exact Nat.le_refl _
  | cons entity rest ih =>
      obtain ⟨⟨var, middle⟩, hfirst, h⟩ := except_bind_eq_ok h
      obtain ⟨⟨others, last⟩, hrest, h⟩ := except_bind_eq_ok h
      cases h
      have hmiddle := size_le_of_idOf hindex hfirst
      have hlast := ih (get?_of_idOf hindex hfirst).1 hrest
      rw [List.length_cons]
      omega

theorem exists_idsOf_eq_ok (hindex : index.Consistent) {entities : List Entity} {step : Nat}
    (hkeys : ∀ entity ∈ entities, (entity.stepKey step).isSome = true)
    (hsize : index.size + entities.length ≤ maxVariable) :
    ∃ vars next, index.idsOf entities step = .ok (vars, next) := by
  induction entities generalizing index with
  | nil => exact ⟨[], index, rfl⟩
  | cons entity rest ih =>
      rw [List.length_cons] at hsize
      have hfits : index.size < maxVariable := by omega
      obtain ⟨var, middle, hfirst⟩ := exists_idOf_eq_ok (hkeys entity (by simp)) hfits
      have hgrowth := size_le_of_idOf hindex hfirst
      obtain ⟨vars, next, hrest⟩ := ih (get?_of_idOf hindex hfirst).1
        (fun other hother => hkeys other (by simp [hother])) (by omega)
      refine ⟨var :: vars, next, ?_⟩
      simp only [idsOf, hfirst, hrest, bind, Except.bind, pure, Except.pure]

end VariableIndex

end BoundedPlanning
