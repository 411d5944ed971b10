import BoundedPlanning.Text.Digits

/-!
The tokens of a JSON text.  Strings are scanned into pieces first, since an escape may stand for
half of a character; `joinPieces` puts the halves together.
-/

namespace BoundedPlanning

inductive JsonToken
  | openArray
  | closeArray
  | openObject
  | closeObject
  | colon
  | comma
  | null
  | bool (value : Bool)
  | natural (value : Nat)
  | otherNumber (text : List Char)
  | string (text? : Option String)
  deriving DecidableEq, Repr

/-- A part of a string: a character, or the number of a `\u` escape. -/
inductive StringPiece
  | char (char : Char)
  | unit (code : Nat)
  deriving DecidableEq, Repr

namespace JsonToken

def isBlank (c : Char) : Bool := c == ' ' || c == '\t' || c == '\n' || c == '\r'

def hexUnit? (a b c d : Char) : Option Nat := do
  return (((← hexDigit? a) * 16 + (← hexDigit? b)) * 16 + (← hexDigit? c)) * 16 + (← hexDigit? d)

def letterEscape? : Char → Option Char
  | '"' => some '"'
  | '\\' => some '\\'
  | '/' => some '/'
  | 'b' => some '\x08'
  | 'f' => some '\x0c'
  | 'n' => some '\n'
  | 'r' => some '\r'
  | 't' => some '\t'
  | _ => none

def prependPiece (piece : StringPiece) (scanned : List StringPiece × List Char) :
    List StringPiece × List Char :=
  (piece :: scanned.1, scanned.2)

/-- The pieces of a string up to its closing quote, and what follows the quote. -/
def scanPieces : List Char → Option (List StringPiece × List Char)
  | [] => none
  | '"' :: rest => some ([], rest)
  | '\\' :: 'u' :: a :: b :: c :: d :: rest =>
    match hexUnit? a b c d with
    | some code => (scanPieces rest).map (prependPiece (.unit code))
    | none => none
  | '\\' :: letter :: rest =>
    match letterEscape? letter with
    | some char => (scanPieces rest).map (prependPiece (.char char))
    | none => none
  | char :: rest =>
    if char.toNat < 0x20 ∨ char = '\\' then none
    else (scanPieces rest).map (prependPiece (.char char))

theorem length_scanPieces_le {cs : List Char} {scanned : List StringPiece × List Char}
    (h : scanPieces cs = some scanned) : scanned.2.length ≤ cs.length := by
  fun_induction scanPieces cs generalizing scanned with
  | case1 => cases h
  | case2 rest => cases h; simp
  | case3 a b c d rest code hcode ih =>
    obtain ⟨inner, hinner, rfl⟩ := Option.map_eq_some_iff.1 h
    have := ih hinner
    simp only [prependPiece, List.length_cons]; omega
  | case4 => cases h
  | case5 letter rest hne char hchar ih =>
    obtain ⟨inner, hinner, rfl⟩ := Option.map_eq_some_iff.1 h
    have := ih hinner
    simp only [prependPiece, List.length_cons]; omega
  | case6 => cases h
  | case7 => cases h
  | case8 char rest hquote hunit hletter hchar ih =>
    obtain ⟨inner, hinner, rfl⟩ := Option.map_eq_some_iff.1 h
    have := ih hinner
    simp only [prependPiece, List.length_cons]; omega

/-- The text of pieces: an upper and a lower half of a surrogate pair are one character together;
a half alone has no text. -/
def joinPieces : List StringPiece → Option (List Char)
  | [] => some []
  | .char char :: rest => (joinPieces rest).map (char :: ·)
  | .unit code :: rest =>
    if code < 0xd800 ∨ 0xe000 ≤ code then (joinPieces rest).map (Char.ofNat code :: ·)
    else
      match rest with
      | .unit low :: rest =>
        if code < 0xdc00 ∧ 0xdc00 ≤ low ∧ low < 0xe000 then
          (joinPieces rest).map
            (Char.ofNat (0x10000 + (code - 0xd800) * 0x400 + (low - 0xdc00)) :: ·)
        else none
      | _ => none

def isNumberChar (c : Char) : Bool :=
  c.isDigit || c == '-' || c == '+' || c == '.' || c == 'e' || c == 'E'

def afterDigits? : List Char → Option (List Char)
  | c :: rest => if c.isDigit then some (rest.dropWhile Char.isDigit) else none
  | [] => none

/-- What follows an integer part: a single zero, or digits that do not start with zero. -/
def afterInteger? : List Char → Option (List Char)
  | '0' :: rest => some rest
  | cs => afterDigits? cs

def afterFraction? : List Char → Option (List Char)
  | '.' :: rest => afterDigits? rest
  | cs => some cs

def afterExponent? : List Char → Option (List Char)
  | c :: rest =>
    if c == 'e' || c == 'E' then
      match rest with
      | '+' :: digits => afterDigits? digits
      | '-' :: digits => afterDigits? digits
      | digits => afterDigits? digits
    else some (c :: rest)
  | [] => some []

/-- Whether the characters are a number: an optional minus, an integer part, an optional fraction,
an optional exponent. -/
def isNumber (cs : List Char) : Bool :=
  let unsigned := match cs with
    | '-' :: rest => rest
    | _ => cs
  match (afterInteger? unsigned).bind fun cs => (afterFraction? cs).bind afterExponent? with
  | some rest => rest.isEmpty
  | none => false

def ofNumber? (cs : List Char) : Option JsonToken :=
  if isNumber cs then
    if cs.all Char.isDigit then some (.natural (decimalValue cs)) else some (.otherNumber cs)
  else none

def ofWord? (cs : List Char) : Option JsonToken :=
  if cs = "null".toList then some .null
  else if cs = "true".toList then some (.bool true)
  else if cs = "false".toList then some (.bool false)
  else none

def ofSign? : Char → Option JsonToken
  | '[' => some .openArray
  | ']' => some .closeArray
  | '\x7b' => some .openObject
  | '\x7d' => some .closeObject
  | ':' => some .colon
  | ',' => some .comma
  | _ => none

theorem length_dropWhile_le (p : Char → Bool) (cs : List Char) :
    (cs.dropWhile p).length ≤ cs.length := (List.dropWhile_sublist p).length_le

/-- All tokens of a text, or `none` if some part of it is no token. -/
def scan : List Char → Option (List JsonToken)
  | [] => some []
  | c :: rest =>
    if isBlank c then scan rest
    else
      match ofSign? c with
      | some token => (scan rest).map (token :: ·)
      | none =>
        if c = '"' then
          match _h : scanPieces rest with
          | none => none
          | some (pieces, rest) =>
            (scan rest).map (.string ((joinPieces pieces).map String.ofList) :: ·)
        else if c.isAlpha then do
          let token ← ofWord? (c :: rest.takeWhile Char.isAlpha)
          let tokens ← scan (rest.dropWhile Char.isAlpha)
          return token :: tokens
        else do
          let token ← ofNumber? (c :: rest.takeWhile isNumberChar)
          let tokens ← scan (rest.dropWhile isNumberChar)
          return token :: tokens
termination_by cs => cs.length
decreasing_by
  all_goals simp only [List.length_cons]
  · omega
  · omega
  · have := length_scanPieces_le _h
    simp only at this
    omega
  · have := length_dropWhile_le Char.isAlpha rest; omega
  · have := length_dropWhile_le isNumberChar rest; omega

end JsonToken

end BoundedPlanning
