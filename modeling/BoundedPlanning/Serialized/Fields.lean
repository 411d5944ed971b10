import BoundedPlanning.Json.Reader

namespace BoundedPlanning

namespace JsonValue

def natBelow? (bound : Nat) : JsonValue → Option Nat
  | .natural value => if value < bound then some value else none
  | _ => none

def nat32? (value : JsonValue) : Option Nat := value.natBelow? bound32

def nat64? (value : JsonValue) : Option Nat := value.natBelow? bound64

def bool? : JsonValue → Option Bool
  | .bool value => some value
  | _ => none

def text? : JsonValue → Option String
  | .string text => text
  | _ => none

def list? {α : Type} (read : JsonValue → Option α) : JsonValue → Option (List α)
  | .array items => items.mapM read
  | _ => none

def optional? {α : Type} (read : JsonValue → Option α) : JsonValue → Option (Option α)
  | .null => some none
  | value => (read value).map some

/-- The name of a choice: a string, or an object whose only entry has this key and no value. -/
def choice? : JsonValue → Option String
  | .string text => text
  | .object [(key, .null)] => key
  | _ => none

end JsonValue

/-- The fields of a record in the order of their declaration; `none` where one is missing. -/
structure JsonFields where
  values : List (Option JsonValue)
  /-- Whether the fields were given by name. -/
  byName : Bool

namespace JsonFields

def valuesOf (entries : List (Option String × JsonValue)) (name : String) : List JsonValue :=
  entries.filterMap fun (key, value) => if key = some name then some value else none

/-- The only value with the given key, if there is one; repetitions are refused. -/
def single? (entries : List (Option String × JsonValue)) (name : String) :
    Option (Option JsonValue) :=
  match valuesOf entries name with
  | [] => some none
  | [value] => some (some value)
  | _ => none

/-- The fields with the given names.  Keys without text, repeated fields and further list items are
refused; other keys are passed over. -/
def ofValue? (names : List String) : JsonValue → Option JsonFields
  | .object entries =>
    if entries.all fun entry => entry.1.isSome then
      (names.mapM (single? entries)).map fun values => ⟨values, true⟩
    else none
  | .array items =>
    if items.length ≤ names.length then
      some ⟨items.map some ++ List.replicate (names.length - items.length) none, false⟩
    else none
  | _ => none

def field (fields : JsonFields) (i : Nat) : Option JsonValue := fields.values[i]?.getD none

def required {α : Type} (fields : JsonFields) (i : Nat) (read : JsonValue → Option α) : Option α :=
  (fields.field i).bind read

def withDefault {α : Type} (fields : JsonFields) (i : Nat) (read : JsonValue → Option α)
    (value : α) : Option α :=
  match fields.field i with
  | some given => read given
  | none => some value

/-- A field that may be `null`, which it is when it is not given by name. -/
def nullable {α : Type} (fields : JsonFields) (i : Nat) (read : JsonValue → Option α) :
    Option (Option α) :=
  match fields.field i with
  | some given => given.optional? read
  | none => if fields.byName then some none else none

end JsonFields

end BoundedPlanning
