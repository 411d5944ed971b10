import BoundedPlanning.Json.Value

namespace BoundedPlanning

namespace JsonValue

def hexChar (digit : Nat) : Char :=
  if digit < 10 then Char.ofNat ('0'.toNat + digit) else Char.ofNat ('a'.toNat + (digit - 10))

/-- A character inside a string: quotes, backslashes and control characters are escaped. -/
def escapeChar (c : Char) : List Char :=
  if c = '"' then ['\\', '"']
  else if c = '\\' then ['\\', '\\']
  else if c = '\n' then ['\\', 'n']
  else if c = '\r' then ['\\', 'r']
  else if c = '\t' then ['\\', 't']
  else if c = '\x08' then ['\\', 'b']
  else if c = '\x0c' then ['\\', 'f']
  else if c.toNat < 0x20 then ['\\', 'u', '0', '0', hexChar (c.toNat / 16), hexChar (c.toNat % 16)]
  else [c]

/-- A string in quotes.  A string without text is written as half of a surrogate pair. -/
def quoted : Option String → List Char
  | some text => '"' :: text.toList.flatMap escapeChar ++ ['"']
  | none => "\"\\ud800\"".toList

mutual

def compactChars : JsonValue → List Char
  | .null => "null".toList
  | .bool true => "true".toList
  | .bool false => "false".toList
  | .natural value => (toString value).toList
  | .otherNumber text => text
  | .string text? => quoted text?
  | .array [] => ['[', ']']
  | .array (first :: rest) => '[' :: compactChars first ++ compactItems rest ++ [']']
  | .object [] => ['\x7b', '\x7d']
  | .object ((key, value) :: rest) =>
    '\x7b' :: quoted key ++ ':' :: compactChars value ++ compactEntries rest ++ ['\x7d']

def compactItems : List JsonValue → List Char
  | [] => []
  | item :: rest => ',' :: compactChars item ++ compactItems rest

def compactEntries : List (Option String × JsonValue) → List Char
  | [] => []
  | (key, value) :: rest =>
    ',' :: quoted key ++ ':' :: compactChars value ++ compactEntries rest

end

def newLine (level : Nat) : List Char := '\n' :: List.replicate (2 * level) ' '

mutual

/-- The text of a value at the given level, on several lines. -/
def prettyChars (level : Nat) : JsonValue → List Char
  | .array (first :: rest) =>
    '[' :: newLine (level + 1) ++ prettyChars (level + 1) first ++ prettyItems (level + 1) rest ++
      newLine level ++ [']']
  | .object ((key, value) :: rest) =>
    '\x7b' :: newLine (level + 1) ++ quoted key ++ ": ".toList ++ prettyChars (level + 1) value ++
      prettyEntries (level + 1) rest ++ newLine level ++ ['\x7d']
  | value => compactChars value

def prettyItems (level : Nat) : List JsonValue → List Char
  | [] => []
  | item :: rest => ',' :: newLine level ++ prettyChars level item ++ prettyItems level rest

def prettyEntries (level : Nat) : List (Option String × JsonValue) → List Char
  | [] => []
  | (key, value) :: rest =>
    ',' :: newLine level ++ quoted key ++ ": ".toList ++ prettyChars level value ++
      prettyEntries level rest

end

def compact (value : JsonValue) : String := String.ofList value.compactChars

def pretty (value : JsonValue) : String := String.ofList (value.prettyChars 0)

end JsonValue

end BoundedPlanning
