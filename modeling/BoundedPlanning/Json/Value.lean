namespace BoundedPlanning

/-- A JSON value.  A string has no text when one of its escapes is half of a surrogate pair. -/
inductive JsonValue
  | null
  | bool (value : Bool)
  | natural (value : Nat)
  /-- A number with a sign, a fraction or an exponent. -/
  | otherNumber (text : List Char)
  | string (text? : Option String)
  | array (items : List JsonValue)
  | object (entries : List (Option String × JsonValue))
  deriving Inhabited

namespace JsonValue

def text (value : String) : JsonValue := .string (some value)

def record (entries : List (String × JsonValue)) : JsonValue :=
  .object (entries.map fun (key, value) => (some key, value))

def list {α : Type} (write : α → JsonValue) (items : List α) : JsonValue := .array (items.map write)

def optional {α : Type} (write : α → JsonValue) : Option α → JsonValue
  | none => .null
  | some value => write value

end JsonValue

end BoundedPlanning
