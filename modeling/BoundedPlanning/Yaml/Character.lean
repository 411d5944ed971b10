namespace BoundedPlanning.Yaml

def isAllowed (c : Char) : Bool :=
  let code := c.toNat
  code == 0x09 || code == 0x0a || code == 0x0d || (0x20 ≤ code && code ≤ 0x7e) || code == 0x85 ||
    (0xa0 ≤ code && code ≤ 0xd7ff) || (0xe000 ≤ code && code ≤ 0xfffd) || 0x10000 ≤ code

/-- The mark that may stand at the front of a line. -/
def byteOrderMark : Char := '\ufeff'

def isBreak (c : Char) : Bool :=
  c == '\r' || c == '\n' || c == '\u0085' || c == '\u2028' || c == '\u2029'

def isBlank (c : Char) : Bool := c == ' ' || c == '\t'

/-- A blank, a line break or the end of the text is next. -/
def startsBlank : List Char → Bool
  | [] => true
  | c :: _ => isBlank c || isBreak c

/-- A line break as it is kept in a scalar: most breaks are kept as line feeds. -/
def keptBreak (c : Char) : Char := if c == '\u2028' || c == '\u2029' then c else '\n'

def isNameChar (c : Char) : Bool := c.isAlphanum || c == '_' || c == '-'

/-- Characters that have a meaning of their own inside brackets and braces. -/
def isFlowSign (c : Char) : Bool :=
  c == ',' || c == '[' || c == ']' || c == '\x7b' || c == '\x7d'

def startsDocumentMarker : List Char → Bool
  | '-' :: '-' :: '-' :: rest => startsBlank rest
  | '.' :: '.' :: '.' :: rest => startsBlank rest
  | _ => false

structure Place where
  /-- The number of bytes before it. -/
  offset : Nat := 0
  line : Nat := 0
  column : Nat := 0

namespace Place

def across (place : Place) (c : Char) : Place :=
  { place with offset := place.offset + c.utf8Size, column := place.column + 1 }

def acrossAll (place : Place) (cs : List Char) : Place := cs.foldl across place

def newLine (place : Place) (size : Nat) : Place :=
  { offset := place.offset + size, line := place.line + 1 }

def acrossBreak (place : Place) (c : Char) : Place := place.newLine c.utf8Size

/-- The place after a carriage return and a line feed, which are one line break. -/
def acrossReturn (place : Place) : Place := place.newLine 2

end Place

end BoundedPlanning.Yaml
