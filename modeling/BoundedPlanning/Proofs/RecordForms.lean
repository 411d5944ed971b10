import BoundedPlanning.Proofs.JsonRoundTrip
import BoundedPlanning.Serialized.Fields

namespace BoundedPlanning

namespace JsonValue

/-- A form of the record with the first value.  The defaults are entries that need not be given; a
list can only leave out its last ones, and none that are `null`. -/
inductive FormOf (defaults : List (String × JsonValue)) : JsonValue → JsonValue → Prop
  | byName {fields : List (String × JsonValue)} {entries others : List (Option String × JsonValue)}
      (omitted : List String) (homitted : ∀ field ∈ fields, field.1 ∈ omitted → field ∈ defaults)
      (hothers : ∀ other ∈ others, ∃ name, other.1 = some name ∧ name ∉ fields.map Prod.fst)
      (hentries : entries.Perm ((fields.filter fun field => field.1 ∉ omitted).map
        (fun (name, value) => (some name, value)) ++ others)) :
      FormOf defaults (.record fields) (.object entries)
  | inOrder {fields : List (String × JsonValue)} (count : Nat)
      (homitted : ∀ field ∈ fields.drop count, field ∈ defaults ∧ field.2 ≠ .null) :
      FormOf defaults (.record fields) (.array ((fields.take count).map Prod.snd))

theorem formOf_record (defaults fields : List (String × JsonValue)) :
    FormOf defaults (.record fields) (.record fields) := by
  refine @FormOf.byName defaults fields _ [] [] (by simp) (by simp) ?_
  rw [List.filter_eq_self.mpr (by simp), List.append_nil]

theorem record_injective {first second : List (String × JsonValue)}
    (h : record first = record second) : first = second := by
  refine (List.map_inj_right ?_).mp (JsonValue.object.inj h)
  rintro ⟨name, value⟩ ⟨name', value'⟩ heq
  cases heq
  rfl

theorem plain_record {fields : List (String × JsonValue)}
    (h : ∀ field ∈ fields, field.2.Plain) : (record fields).Plain := by
  refine .object ?_ ?_
  all_goals
    intro entry hentry
    obtain ⟨field, hfield, rfl⟩ := List.mem_map.mp hentry
  · rfl
  · exact h field hfield

end JsonValue

/-- Values in the range are written plainly and read back, and no others are read. -/
structure CodecLaws {α : Type} (write : α → JsonValue) (read : JsonValue → Option α)
    (InRange : α → Prop) : Prop where
  plain : ∀ item, InRange item → (write item).Plain
  read_write : ∀ item, InRange item → read (write item) = some item
  inRange : ∀ value item, read value = some item → InRange item

namespace CodecLaws

open JsonValue

variable {α : Type} {write : α → JsonValue} {read : JsonValue → Option α} {InRange : α → Prop}

theorem natBelow (bound : Nat) : CodecLaws .natural (natBelow? bound) (· < bound) where
  plain n _ := .natural n
  read_write n h := if_pos h
  inRange value n h := by
    unfold natBelow? at h
    split at h
    · split at h
      · cases h
        assumption
      · cases h
    · cases h

theorem text : CodecLaws .text text? (fun _ => True) where
  plain text _ := .string text
  read_write _ _ := rfl
  inRange _ _ _ := trivial

theorem bool : CodecLaws .bool bool? (fun _ => True) where
  plain value _ := .bool value
  read_write _ _ := rfl
  inRange _ _ _ := trivial

theorem list (laws : CodecLaws write read InRange) :
    CodecLaws (.list write) (list? read) (fun items => ∀ item ∈ items, InRange item) where
  plain items h := by
    refine .array fun value hvalue => ?_
    obtain ⟨item, hitem, rfl⟩ := List.mem_map.mp hvalue
    exact laws.plain item (h item hitem)
  read_write items h := by
    rw [JsonValue.list, list?]
    induction items with
    | nil => rfl
    | cons item items ih =>
        rw [List.forall_mem_cons] at h
        rw [List.map_cons, List.mapM_cons, laws.read_write item h.1, ih h.2]
        rfl
  inRange value items h := by
    unfold list? at h
    split at h
    · rename_i values
      induction values generalizing items with
      | nil =>
          cases h
          simp
      | cons first values ih =>
          rw [List.mapM_cons] at h
          obtain ⟨item, hitem, h⟩ := Option.bind_eq_some_iff.mp h
          obtain ⟨rest, hrest, h⟩ := Option.bind_eq_some_iff.mp h
          cases h
          exact List.forall_mem_cons.mpr ⟨laws.inRange first item hitem, ih rest hrest⟩
    · cases h

/-- A value that is not itself written as `null` may be absent. -/
theorem optional (laws : CodecLaws write read InRange) (hnull : ∀ item, write item ≠ .null) :
    CodecLaws (.optional write) (optional? read) (fun item? => ∀ item ∈ item?, InRange item) where
  plain item? h := by
    cases item? with
    | none => exact .null
    | some item => exact laws.plain item (h item rfl)
  read_write item? h := by
    cases item? with
    | none => rfl
    | some item =>
        have hread := laws.read_write item (h item rfl)
        rw [JsonValue.optional, optional?, hread]
        · rfl
        · exact hnull item
  inRange value item? h := by
    unfold optional? at h
    split at h
    · cases h
      simp
    · obtain ⟨item, hitem, rfl⟩ := Option.map_eq_some_iff.mp h
      simpa using laws.inRange value item hitem

end CodecLaws

namespace JsonFields

open JsonValue

/-! ### Entries by name -/

variable {fields defaults : List (String × JsonValue)}
  {entries others : List (Option String × JsonValue)} {name : String} {value : JsonValue}

theorem valuesOf_append (first second : List (Option String × JsonValue)) (name : String) :
    valuesOf (first ++ second) name = valuesOf first name ++ valuesOf second name :=
  List.filterMap_append

theorem valuesOf_eq_nil (h : ∀ entry ∈ entries, entry.1 ≠ some name) :
    valuesOf entries name = [] := by
  rw [valuesOf, List.filterMap_eq_nil_iff]
  intro entry hentry
  exact if_neg (h entry hentry)

theorem valuesOf_fields_eq_nil (h : name ∉ fields.map Prod.fst) :
    valuesOf (fields.map fun (name, value) => (some name, value)) name = [] := by
  apply valuesOf_eq_nil
  intro entry hentry hname
  obtain ⟨field, hfield, rfl⟩ := List.mem_map.mp hentry
  cases hname
  exact h (List.mem_map_of_mem hfield)

theorem valuesOf_fields (hnames : (fields.map Prod.fst).Nodup) (h : (name, value) ∈ fields) :
    valuesOf (fields.map fun (name, value) => (some name, value)) name = [value] := by
  induction fields with
  | nil => cases h
  | cons field fields ih =>
      rw [List.map_cons, List.nodup_cons] at hnames
      rw [List.map_cons, ← List.singleton_append, valuesOf_append]
      rcases List.mem_cons.mp h with rfl | hrest
      · rw [valuesOf_fields_eq_nil hnames.1]
        simp [valuesOf]
      · rw [ih hnames.2 hrest, valuesOf_eq_nil]
        · rfl
        · intro entry hentry hname
          obtain rfl := List.mem_singleton.mp hentry
          cases hname
          exact hnames.1 (List.mem_map.mpr ⟨_, hrest, rfl⟩)

/-- The entries among which a field is looked for may come in any order. -/
theorem single?_of_perm (h : entries.Perm others) (hlength : (valuesOf others name).length ≤ 1) :
    single? entries name = some (valuesOf others name).head? := by
  have hvalues : (valuesOf entries name).Perm (valuesOf others name) := h.filterMap _
  cases hothers : valuesOf others name with
  | nil =>
      rw [hothers, List.perm_nil] at hvalues
      rw [single?, hvalues]
      rfl
  | cons value rest =>
      rw [hothers, List.length_cons] at hlength
      obtain rfl := List.eq_nil_of_length_eq_zero (by omega : rest.length = 0)
      rw [hothers, List.perm_singleton] at hvalues
      rw [single?, hvalues]
      rfl

theorem mapM_names {α : Type} {read : String → Option α} {result : String × JsonValue → α}
    (h : ∀ field ∈ fields, read field.1 = some (result field)) :
    (fields.map Prod.fst).mapM read = some (fields.map result) := by
  induction fields with
  | nil => rfl
  | cons field fields ih =>
      rw [List.forall_mem_cons] at h
      rw [List.map_cons, List.mapM_cons, h.1, ih h.2]
      rfl

/-- What is given of a field of which the name may be omitted. -/
def given? (omitted : List String) (field : String × JsonValue) : Option JsonValue :=
  if field.1 ∈ omitted then none else some field.2

section

variable {omitted : List String} (hnames : (fields.map Prod.fst).Nodup)
  (hothers : ∀ other ∈ others, ∃ name, other.1 = some name ∧ name ∉ fields.map Prod.fst)

include hnames hothers

theorem valuesOf_entries {field : String × JsonValue} (hfield : field ∈ fields) :
    valuesOf ((fields.filter fun field => field.1 ∉ omitted).map
        (fun (name, value) => (some name, value)) ++ others) field.1 =
      (given? omitted field).toList := by
  have hother : valuesOf others field.1 = [] := by
    apply valuesOf_eq_nil
    intro other hmem hname
    obtain ⟨name, hname', hnew⟩ := hothers other hmem
    rw [hname] at hname'
    exact hnew (Option.some.inj hname' ▸ List.mem_map_of_mem hfield)
  rw [valuesOf_append, hother, List.append_nil, given?]
  split
  · apply valuesOf_fields_eq_nil
    simp_all
  · refine valuesOf_fields (hnames.sublist (List.filter_sublist.map _)) ?_
    exact List.mem_filter.mpr ⟨hfield, by simp_all⟩

theorem ofValue?_object (hentries : entries.Perm ((fields.filter fun field =>
      field.1 ∉ omitted).map (fun (name, value) => (some name, value)) ++ others)) :
    ofValue? (fields.map Prod.fst) (.object entries) =
      some ⟨fields.map (given? omitted), true⟩ := by
  have hnamed : entries.all (fun entry => entry.1.isSome) = true := by
    rw [List.all_eq_true]
    intro entry hentry
    rcases List.mem_append.mp (hentries.mem_iff.mp hentry) with hfield | hother
    · obtain ⟨field, -, rfl⟩ := List.mem_map.mp hfield
      rfl
    · obtain ⟨name, hname, -⟩ := hothers entry hother
      rw [hname]
      rfl
  have hsingle : ∀ field ∈ fields, single? entries field.1 = some (given? omitted field) := by
    intro field hfield
    have hlength : (given? omitted field).toList.length ≤ 1 := by
      cases given? omitted field <;> simp
    rw [← valuesOf_entries hnames hothers hfield] at hlength
    rw [single?_of_perm hentries hlength, valuesOf_entries hnames hothers hfield,
      Option.head?_toList]
  rw [ofValue?, if_pos hnamed, mapM_names hsingle]
  rfl

end

/-! ### Fields by position -/

/-- The field at the position has this value, or it was left out and has its default. -/
def Gives (given : JsonFields) (defaults : List (String × JsonValue)) (i : Nat)
    (field : String × JsonValue) : Prop :=
  given.field i = some field.2 ∨
    given.field i = none ∧ field ∈ defaults ∧ (field.2 = .null → given.byName = true)

theorem gives_object {omitted : List String} {i : Nat} {field : String × JsonValue}
    (homitted : ∀ field ∈ fields, field.1 ∈ omitted → field ∈ defaults)
    (hfield : fields[i]? = some field) :
    Gives ⟨fields.map (given? omitted), true⟩ defaults i field := by
  have hgiven : JsonFields.field ⟨fields.map (given? omitted), true⟩ i = given? omitted field := by
    simp [JsonFields.field, hfield]
  rw [Gives, hgiven]
  by_cases hleft : field.1 ∈ omitted
  · have hdefault := homitted field (List.mem_of_getElem? hfield) hleft
    exact .inr ⟨if_pos hleft, hdefault, fun _ => rfl⟩
  · exact .inl (if_neg hleft)

theorem gives_array {count missing i : Nat} {field : String × JsonValue}
    (homitted : ∀ field ∈ fields.drop count, field ∈ defaults ∧ field.2 ≠ .null)
    (hfield : fields[i]? = some field) :
    Gives ⟨((fields.take count).map Prod.snd).map some ++ List.replicate missing none, false⟩
      defaults i field := by
  have hlength := (List.getElem?_eq_some_iff.mp hfield).1
  by_cases hi : i < count
  · left
    rw [JsonFields.field, List.getElem?_append_left (by simp; omega)]
    simp [hi, hfield]
  · have hdropped : field ∈ fields.drop count := by
      apply List.mem_of_getElem? (i := i - count)
      rw [List.getElem?_drop, Nat.add_sub_cancel' (Nat.le_of_not_lt hi)]
      exact hfield
    obtain ⟨hdefault, hnull⟩ := homitted field hdropped
    refine .inr ⟨?_, hdefault, fun h => absurd h hnull⟩
    rw [JsonFields.field, List.getElem?_append_right (by simp; omega), List.getElem?_replicate]
    split <;> rfl

theorem exists_of_formOf {form : JsonValue} (h : FormOf defaults (.record fields) form)
    (hnames : (fields.map Prod.fst).Nodup) :
    ∃ given, ofValue? (fields.map Prod.fst) form = some given ∧
      ∀ i field, fields[i]? = some field → given.Gives defaults i field := by
  generalize hrecord : record fields = value at h
  cases h with
  | byName omitted homitted hothers hentries =>
      obtain rfl := record_injective hrecord
      exact ⟨_, ofValue?_object hnames hothers hentries, fun _ _ => gives_object homitted⟩
  | inOrder count homitted =>
      obtain rfl := record_injective hrecord
      refine ⟨_, if_pos ?_, fun _ _ => gives_array homitted⟩
      simp only [List.length_map, List.length_take]
      omega

theorem Gives.required_eq_read {α : Type} {read : JsonValue → Option α} {given : JsonFields}
    {i : Nat} (hgives : given.Gives defaults i (name, value))
    (hdefault : name ∉ defaults.map Prod.fst) : given.required i read = read value := by
  rcases hgives with hgiven | ⟨-, hmem, -⟩
  · rw [required, hgiven]
    rfl
  · exact absurd (List.mem_map_of_mem hmem) hdefault

end JsonFields

namespace CodecLaws

open JsonFields

variable {α : Type} {write : α → JsonValue} {read : JsonValue → Option α} {InRange : α → Prop}
  {defaults : List (String × JsonValue)} {given : JsonFields} {i : Nat} {name : String}
  {item standard : α}

theorem required_eq (laws : CodecLaws write read InRange) (h : InRange item)
    (hgives : given.Gives defaults i (name, write item)) (hdefault : name ∉ defaults.map Prod.fst) :
    given.required i read = some item := by
  rw [hgives.required_eq_read hdefault]
  exact laws.read_write item h

theorem withDefault_eq (laws : CodecLaws write read InRange) (standard : α) (h : InRange item)
    (hgives : given.Gives defaults i (name, write item))
    (hdefault : ∀ value, (name, value) ∈ defaults → read value = some standard) :
    given.withDefault i read standard = some item := by
  have hread := laws.read_write item h
  rcases hgives with hgiven | ⟨hgiven, hmem, -⟩
  · rw [withDefault, hgiven]
    exact hread
  · rw [withDefault, hgiven, ← hread]
    exact (hdefault (write item) hmem).symm

theorem nullable_eq {write : Option α → JsonValue} {InRange : Option α → Prop} {item? : Option α}
    (laws : CodecLaws write (JsonValue.optional? read) InRange) (h : InRange item?)
    (hgives : given.Gives defaults i (name, write item?))
    (hdefault : ∀ value, (name, value) ∈ defaults → value = .null) :
    given.nullable i read = some item? := by
  have hread := laws.read_write item? h
  rcases hgives with hgiven | ⟨hgiven, hmem, hbyName⟩
  · rw [nullable, hgiven]
    exact hread
  · have hnull := hdefault (write item?) hmem
    rw [nullable, hgiven, hbyName hnull, ← hread, hnull]
    rfl

theorem inRange_required (laws : CodecLaws write read InRange)
    (h : given.required i read = some item) : InRange item := by
  obtain ⟨value, -, hread⟩ := Option.bind_eq_some_iff.mp h
  exact laws.inRange value item hread

theorem inRange_withDefault (laws : CodecLaws write read InRange)
    (h : given.withDefault i read standard = some item) (hstandard : InRange standard) :
    InRange item := by
  unfold withDefault at h
  split at h
  · exact laws.inRange _ item h
  · cases h
    exact hstandard

theorem inRange_nullable {write : Option α → JsonValue} {InRange : Option α → Prop}
    {item? : Option α} (laws : CodecLaws write (JsonValue.optional? read) InRange)
    (h : given.nullable i read = some item?) (hnone : InRange none) : InRange item? := by
  unfold nullable at h
  split at h
  · exact laws.inRange _ item? h
  · split at h
    · cases h
      exact hnone
    · cases h

end CodecLaws

end BoundedPlanning
