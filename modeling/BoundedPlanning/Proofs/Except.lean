import Mathlib.Data.List.Forall2

namespace BoundedPlanning

variable {ε α β : Type}

theorem except_bind_eq_ok {first : Except ε α} {rest : α → Except ε β} {b : β}
    (h : first >>= rest = .ok b) : ∃ a, first = .ok a ∧ rest a = .ok b := by
  cases first with
  | error error => cases h
  | ok a => exact ⟨a, rfl, h⟩

theorem except_bind_eq_error {first : Except ε α} {rest : α → Except ε β} {error : ε}
    (h : first >>= rest = .error error) :
    first = .error error ∨ ∃ a, first = .ok a ∧ rest a = .error error := by
  cases first with
  | error other =>
      cases h
      exact Or.inl rfl
  | ok a => exact Or.inr ⟨a, rfl, h⟩

theorem except_bind_congr {first : Except ε α} {rest other : α → Except ε β}
    (h : ∀ a, first = .ok a → rest a = other a) : first >>= rest = first >>= other := by
  cases first with
  | error error => rfl
  | ok a => exact h a rfl

theorem except_mapError_eq_ok {ε' : Type} {result : Except ε α} {wrap : ε → ε'} {a : α}
    (h : result.mapError wrap = .ok a) : result = .ok a := by
  cases result with
  | error error => cases h
  | ok value =>
      cases h
      rfl

theorem exists_of_forall₂_right {R : α → β → Prop} {items : List α} {results : List β}
    (h : List.Forall₂ R items results) {result : β} (hresult : result ∈ results) :
    ∃ item ∈ items, R item result := by
  induction h with
  | nil => cases hresult
  | @cons item first rest others hfirst _ ih =>
      rcases List.mem_cons.mp hresult with rfl | hresult
      · exact ⟨item, List.mem_cons_self, hfirst⟩
      · obtain ⟨other, hother, hresult⟩ := ih hresult
        exact ⟨other, List.mem_cons_of_mem _ hother, hresult⟩

theorem except_mapM_eq_ok_iff {f : α → Except ε β} {items : List α} {results : List β} :
    items.mapM f = .ok results ↔
      List.Forall₂ (fun item result => f item = .ok result) items results := by
  induction items generalizing results with
  | nil =>
      rw [List.mapM_nil, List.forall₂_nil_left_iff]
      exact ⟨fun h => (Except.ok.inj h).symm, fun h => by rw [h]; rfl⟩
  | cons item rest ih =>
      rw [List.mapM_cons, List.forall₂_cons_left_iff]
      constructor
      · intro h
        obtain ⟨result, hresult, h⟩ := except_bind_eq_ok h
        obtain ⟨others, hothers, h⟩ := except_bind_eq_ok h
        cases h
        exact ⟨result, others, hresult, ih.mp hothers, rfl⟩
      · rintro ⟨result, others, hresult, hothers, rfl⟩
        rw [hresult, ih.mpr hothers]
        rfl

theorem exists_mapM_eq_ok {f : α → Except ε β} {items : List α}
    (h : ∀ item ∈ items, ∃ result, f item = .ok result) :
    ∃ results, items.mapM f = .ok results := by
  induction items with
  | nil => exact ⟨[], rfl⟩
  | cons item rest ih =>
      obtain ⟨result, hresult⟩ := h item (by simp)
      obtain ⟨results, hresults⟩ := ih fun other hother => h other (by simp [hother])
      refine ⟨result :: results, ?_⟩
      rw [List.mapM_cons, hresult, hresults]
      rfl

theorem exists_of_mapM_eq_ok {f : α → Except ε β} {items : List α} {results : List β}
    (h : items.mapM f = .ok results) {item : α} (hitem : item ∈ items) :
    ∃ result, f item = .ok result := by
  have hall := except_mapM_eq_ok_iff.mp h
  clear h
  induction hall with
  | nil => cases hitem
  | @cons first result rest results hfirst _ ih =>
      rcases List.mem_cons.mp hitem with rfl | hrest
      · exact ⟨result, hfirst⟩
      · exact ih hrest

/-- The error is that of the first element for which the computation fails. -/
theorem except_mapM_eq_error_iff {f : α → Except ε β} {items : List α} {error : ε} :
    items.mapM f = .error error ↔
      ∃ before item after, items = before ++ item :: after ∧
        (∀ other ∈ before, ∃ result, f other = .ok result) ∧ f item = .error error := by
  constructor
  · intro h
    induction items with
    | nil => cases h
    | cons item rest ih =>
        rw [List.mapM_cons] at h
        cases hitem : f item with
        | error other =>
            rw [hitem] at h
            cases h
            exact ⟨[], item, rest, rfl, by simp, hitem⟩
        | ok result =>
            rw [hitem] at h
            cases hrest : rest.mapM f with
            | error other =>
                rw [hrest] at h
                cases h
                obtain ⟨before, failing, after, rfl, hbefore, herror⟩ := ih hrest
                refine ⟨item :: before, failing, after, rfl, ?_, herror⟩
                rw [List.forall_mem_cons]
                exact ⟨⟨result, hitem⟩, hbefore⟩
            | ok results =>
                rw [hrest] at h
                cases h
  · rintro ⟨before, item, after, rfl, hbefore, herror⟩
    obtain ⟨results, hresults⟩ := exists_mapM_eq_ok hbefore
    rw [List.mapM_append, hresults, List.mapM_cons, herror]
    rfl

theorem sublist_of_mapM_eq_ok {f : α → Except ε β} {items others : List α}
    {results kept : List β} (hitems : items.Sublist others) (h : items.mapM f = .ok kept)
    (hothers : others.mapM f = .ok results) : kept.Sublist results := by
  rw [except_mapM_eq_ok_iff] at h hothers
  induction hitems generalizing results kept with
  | slnil =>
      cases h
      exact List.nil_sublist _
  | cons other _ ih =>
      cases hothers with
      | cons _ hrest => exact (ih h hrest).cons _
  | cons_cons item _ ih =>
      cases h with
      | cons hitem hkept =>
      cases hothers with
      | cons hother hrest =>
          rw [hitem] at hother
          cases hother
          exact (ih hkept hrest).cons_cons _

theorem exists_of_mapM_eq_error {f : α → Except ε β} {items : List α} {error : ε}
    (h : items.mapM f = .error error) : ∃ item ∈ items, f item = .error error := by
  obtain ⟨before, item, after, rfl, -, herror⟩ := except_mapM_eq_error_iff.mp h
  exact ⟨item, by simp, herror⟩

theorem mem_of_mapM_eq_ok {f : α → Except ε β} {items : List α} {results : List β}
    (h : items.mapM f = .ok results) {result : β} :
    result ∈ results ↔ ∃ item ∈ items, f item = .ok result := by
  have hall := except_mapM_eq_ok_iff.mp h
  clear h
  induction hall with
  | nil => simp
  | cons hresult _ ih =>
      rw [List.mem_cons, List.exists_mem_cons_iff, hresult, Except.ok.injEq, eq_comm]
      exact or_congr_right ih

def error? : Except ε α → Option ε
  | .ok _ => none
  | .error error => some error

section Errors

variable {result : Except ε α} {error : ε}

theorem error?_eq_some_iff : error? result = some error ↔ result = .error error := by
  cases result <;> simp [error?]

theorem error?_eq_none_iff : error? result = none ↔ ∃ a, result = .ok a := by
  cases result <;> simp [error?]

theorem error?_mapError {ε' : Type} {wrap : ε → ε'} :
    error? (result.mapError wrap) = (error? result).map wrap := by
  cases result <;> rfl

/-- A chain fails with the first error in it. -/
theorem error?_bind {rest : α → Except ε β} {first? later? : Option ε}
    (hfirst : error? result = first?) (hrest : ∀ a, result = .ok a → error? (rest a) = later?) :
    error? (result >>= rest) = first?.or later? := by
  rw [← hfirst]
  cases result with
  | error error => rfl
  | ok a => exact hrest a rfl

theorem error?_mapM {f : α → Except ε β} {items : List α} :
    error? (items.mapM f) = items.findSome? fun item => error? (f item) := by
  ext error
  simp only [error?_eq_some_iff, error?_eq_none_iff, except_mapM_eq_error_iff,
    List.findSome?_eq_some_iff, and_comm]

end Errors

section Stateful

variable {σ : Type} {first : ExceptT ε (StateM σ) α} {rest : α → ExceptT ε (StateM σ) β}
  {state next : σ}

theorem exceptT_bind_of_ok {a : α} (h : first state = (.ok a, next)) :
    (first >>= rest) state = rest a next := by
  simp only [bind, ExceptT.bind, ExceptT.mk, StateT.bind]
  rw [h]
  rfl

theorem exceptT_bind_of_error {error : ε} (h : first state = (.error error, next)) :
    (first >>= rest) state = (.error error, next) := by
  simp only [bind, ExceptT.bind, ExceptT.mk, StateT.bind]
  rw [h]
  rfl

theorem exists_of_exceptT_bind_ok {b : β} (h : (first >>= rest) state = (.ok b, next)) :
    ∃ a middle, first state = (.ok a, middle) ∧ rest a middle = (.ok b, next) := by
  cases hfirst : first state with
  | mk result middle =>
      cases result with
      | error error =>
          rw [exceptT_bind_of_error hfirst] at h
          cases h
      | ok a =>
          rw [exceptT_bind_of_ok hfirst] at h
          exact ⟨a, middle, rfl, h⟩

theorem exceptT_get_bind {rest : σ → ExceptT ε (StateM σ) α} :
    (get >>= rest) state = rest state state := by
  rfl

end Stateful

end BoundedPlanning
