import BoundedPlanning.Text.Digits
import BoundedPlanning.Yaml.Character

namespace BoundedPlanning.Yaml

inductive ScalarStyle
  | plain
  | quoted
  | literal
  | folded
  deriving DecidableEq, Repr

structure ScannedScalar where
  text : List Char
  rest : List Char
  place : Place
  /-- Whether a line ended after the last character of the scalar. -/
  endedLine : Bool

/-- The blanks and line breaks since the last other character. -/
structure Gap where
  /-- The blanks before the first line break, the last one first. -/
  blanks : List Char := []
  broken : Bool := false
  /-- The first line break, unless it was escaped. -/
  firstBreak : Option Char := none
  /-- The line breaks after the first, the last one first. -/
  laterBreaks : List Char := []

namespace Gap

def addBlank (gap : Gap) (c : Char) : Gap :=
  if gap.broken then gap else { gap with blanks := c :: gap.blanks }

def addBreak (gap : Gap) (c : Char) : Gap :=
  if gap.broken then { gap with laterBreaks := keptBreak c :: gap.laterBreaks }
  else { blanks := [], broken := true, firstBreak := some (keptBreak c) }

def escapedBreak : Gap := { broken := true }

/-- The text of the gap, folded, last character first. -/
def folded (gap : Gap) : List Char :=
  if gap.broken then
    match gap.firstBreak with
    | some '\n' => if gap.laterBreaks.isEmpty then [' '] else gap.laterBreaks
    | some c => gap.laterBreaks ++ [c]
    | none => gap.laterBreaks
  else gap.blanks

def isEmpty (gap : Gap) : Bool := gap.blanks.isEmpty && !gap.broken

end Gap

def endsPlain (inFlow : Bool) : List Char → Bool
  | ':' :: rest => startsBlank rest
  | c :: _ => inFlow && isFlowSign c
  | [] => true

/-- A colon that plain scalars inside brackets cannot hold is next. -/
def startsBadColon : List Char → Bool
  | ':' :: c :: _ => isFlowSign c || c == '?'
  | _ => false

/-- Scan a plain scalar from a place.  `indent` is the least column of a further line outside
brackets. -/
def scanPlain (inFlow : Bool) (indent : Nat) :
    List Char → Place → Gap → List Char → Option ScannedScalar
  | [], place, gap, text => some ⟨text.reverse, [], place, gap.broken⟩
  | '\r' :: '\n' :: rest, place, gap, text =>
    scanPlain inFlow indent rest place.acrossReturn (gap.addBreak '\n') text
  | c :: rest, place, gap, text =>
    if isBreak c then scanPlain inFlow indent rest (place.acrossBreak c) (gap.addBreak c) text
    else if isBlank c then
      if gap.broken && decide (place.column < indent) && c == '\t' then none
      else scanPlain inFlow indent rest (place.across c) (gap.addBlank c) text
    else if !gap.isEmpty && ((!inFlow && decide (place.column < indent)) ||
        (place.column == 0 && startsDocumentMarker (c :: rest)) || c == '#') then
      some ⟨text.reverse, c :: rest, place, gap.broken⟩
    else if inFlow && startsBadColon (c :: rest) then none
    else if endsPlain inFlow (c :: rest) then
      some ⟨text.reverse, c :: rest, place, gap.broken⟩
    else scanPlain inFlow indent rest (place.across c) {} (c :: (gap.folded ++ text))

def scanSingleQuoted : List Char → Place → Gap → List Char → Option ScannedScalar
  | [], _, _, _ => none
  | '\r' :: '\n' :: rest, place, gap, text =>
    scanSingleQuoted rest place.acrossReturn (gap.addBreak '\n') text
  | '\'' :: '\'' :: rest, place, gap, text =>
    scanSingleQuoted rest (place.acrossAll ['\'', '\'']) {} ('\'' :: (gap.folded ++ text))
  | c :: rest, place, gap, text =>
    if isBreak c then scanSingleQuoted rest (place.acrossBreak c) (gap.addBreak c) text
    else if isBlank c then scanSingleQuoted rest (place.across c) (gap.addBlank c) text
    else if place.column == 0 && startsDocumentMarker (c :: rest) then none
    else if c == '\'' then some ⟨(gap.folded ++ text).reverse, rest, place.across c, false⟩
    else scanSingleQuoted rest (place.across c) {} (c :: (gap.folded ++ text))

def hexChar? (digits : List Char) : Option Char := do
  let code ← numberInBase? 16 digits
  if (0xd800 ≤ code ∧ code ≤ 0xdfff) ∨ 0x10ffff < code then none else some (Char.ofNat code)

def escapeChar? : Char → Option Char
  | '0' => some '\x00'
  | 'a' => some '\x07'
  | 'b' => some '\x08'
  | 't' => some '\t'
  | '\t' => some '\t'
  | 'n' => some '\n'
  | 'v' => some '\x0b'
  | 'f' => some '\x0c'
  | 'r' => some '\r'
  | 'e' => some '\x1b'
  | ' ' => some ' '
  | '"' => some '"'
  | '/' => some '/'
  | '\\' => some '\\'
  | 'N' => some '\u0085'
  | '_' => some '\u00a0'
  | 'L' => some '\u2028'
  | 'P' => some '\u2029'
  | _ => none

def scanDoubleQuoted : List Char → Place → Gap → List Char → Option ScannedScalar
  | [], _, _, _ => none
  | '\r' :: '\n' :: rest, place, gap, text =>
    scanDoubleQuoted rest place.acrossReturn (gap.addBreak '\n') text
  | '\\' :: '\r' :: '\n' :: rest, place, gap, text =>
    scanDoubleQuoted rest (place.across '\\').acrossReturn .escapedBreak (gap.folded ++ text)
  | '\\' :: 'x' :: a :: b :: rest, place, gap, text =>
    match hexChar? [a, b] with
    | some c =>
      scanDoubleQuoted rest (place.acrossAll ['\\', 'x', a, b]) {} (c :: (gap.folded ++ text))
    | none => none
  | '\\' :: 'u' :: a :: b :: c :: d :: rest, place, gap, text =>
    match hexChar? [a, b, c, d] with
    | some char =>
      scanDoubleQuoted rest (place.acrossAll ['\\', 'u', a, b, c, d]) {}
        (char :: (gap.folded ++ text))
    | none => none
  | '\\' :: 'U' :: a :: b :: c :: d :: e :: f :: g :: h :: rest, place, gap, text =>
    match hexChar? [a, b, c, d, e, f, g, h] with
    | some char =>
      scanDoubleQuoted rest (place.acrossAll ['\\', 'U', a, b, c, d, e, f, g, h]) {}
        (char :: (gap.folded ++ text))
    | none => none
  | '\\' :: c :: rest, place, gap, text =>
    if isBreak c then
      scanDoubleQuoted rest ((place.across '\\').acrossBreak c) .escapedBreak (gap.folded ++ text)
    else
      match escapeChar? c with
      | some char =>
        scanDoubleQuoted rest (place.acrossAll ['\\', c]) {} (char :: (gap.folded ++ text))
      | none => none
  | c :: rest, place, gap, text =>
    if isBreak c then scanDoubleQuoted rest (place.acrossBreak c) (gap.addBreak c) text
    else if isBlank c then scanDoubleQuoted rest (place.across c) (gap.addBlank c) text
    else if place.column == 0 && startsDocumentMarker (c :: rest) then none
    else if c == '"' then some ⟨(gap.folded ++ text).reverse, rest, place.across c, false⟩
    else if c == '\\' then none
    else scanDoubleQuoted rest (place.across c) {} (c :: (gap.folded ++ text))

/-! ### Block scalars -/

/-- What becomes of the line breaks at the end of a block scalar. -/
inductive Chomping
  /-- The last line keeps its break. -/
  | clip
  | strip
  | keep
  deriving DecidableEq, Repr

structure BlockHeader where
  chomping : Chomping
  increment : Option Nat
  rest : List Char
  place : Place

def Chomping.ofSign? : Char → Option Chomping
  | '+' => some .keep
  | '-' => some .strip
  | _ => none

/-- The signs at the front: whether line breaks are kept and how far lines are indented, in either
order, and the number of signs.  An indentation of 0 is refused. -/
def blockSigns? (cs : List Char) : Option (Chomping × Option Nat × Nat) :=
  let increment? (c : Char) : Option Nat :=
    if c.isDigit then some (c.toNat - '0'.toNat) else none
  let (first, second) := (cs.head?, cs.tail.head?)
  let signs : Chomping × Option Nat × Nat :=
    match first.bind Chomping.ofSign?, first.bind increment? with
    | some chomping, _ =>
      match second.bind increment? with
      | some increment => (chomping, some increment, 2)
      | none => (chomping, none, 1)
    | none, some increment =>
      match second.bind Chomping.ofSign? with
      | some chomping => (chomping, some increment, 2)
      | none => (.clip, some increment, 1)
    | none, none => (.clip, none, 0)
  if signs.2.1 == some 0 then none else some signs

def afterLine? (cs : List Char) (place : Place) : Option (List Char × Place) :=
  let blanks := cs.takeWhile isBlank
  let cs := cs.dropWhile isBlank
  let comment := if cs.head? == some '#' then cs.takeWhile fun c => !isBreak c else []
  let place := (place.acrossAll blanks).acrossAll comment
  match cs.drop comment.length with
  | [] => some ([], place)
  | '\r' :: '\n' :: rest => some (rest, place.acrossReturn)
  | c :: rest => if isBreak c then some (rest, place.acrossBreak c) else none

def scanBlockHeader (cs : List Char) (place : Place) : Option BlockHeader := do
  let (chomping, increment, count) ← blockSigns? cs
  let (rest, place) ← afterLine? (cs.drop count) (place.acrossAll (cs.take count))
  return ⟨chomping, increment, rest, place⟩

/-- The column of the first line that is not blank, or of the longest blank line before it;
`none` if a tab stands where the indentation ends. -/
def widestIndent : List Char → Nat → Nat → Option Nat
  | [], column, widest => some (max widest column)
  | c :: rest, column, widest =>
    if c == ' ' then widestIndent rest (column + 1) widest
    else if c == '\t' then none
    else if isBreak c then widestIndent rest 0 (max widest column)
    else some (max widest column)

structure BlockScan where
  /-- The characters so far, the last one first. -/
  text : List Char := []
  lineBreak : Option Char := none
  blankLines : List Char := []
  startedBlank : Bool := false

namespace BlockScan

/-- Start a line whose first character is given: write the breaks before it. -/
def startLine (isLiteral : Bool) (scan : BlockScan) (c : Char) : BlockScan :=
  let isFolded := !isLiteral && scan.lineBreak == some '\n' && !scan.startedBlank && !isBlank c
  let text :=
    if isFolded then (if scan.blankLines.isEmpty then ' ' :: scan.text else scan.text)
    else scan.lineBreak.toList ++ scan.text
  { text := scan.blankLines ++ text, startedBlank := isBlank c }

def finish (chomping : Chomping) (scan : BlockScan) : List Char :=
  let text :=
    match chomping with
    | .strip => scan.text
    | .clip => scan.lineBreak.toList ++ scan.text
    | .keep => scan.blankLines ++ (scan.lineBreak.toList ++ scan.text)
  text.reverse

end BlockScan

/-- Scan the lines of a block scalar that are indented by `indent`.  `inLine` says whether a line
was started. -/
def scanBlockLines (isLiteral : Bool) (chomping : Chomping) (indent : Nat) :
    List Char → Bool → Place → BlockScan → Option ScannedScalar
  | [], _, place, scan => some ⟨scan.finish chomping, [], place, true⟩
  | '\r' :: '\n' :: rest, inLine, place, scan =>
    scanBlockLines isLiteral chomping indent rest false place.acrossReturn
      (if inLine then { scan with lineBreak := some '\n' }
        else { scan with blankLines := '\n' :: scan.blankLines })
  | c :: rest, true, place, scan =>
    if isBreak c then
      scanBlockLines isLiteral chomping indent rest false (place.acrossBreak c)
        { scan with lineBreak := some (keptBreak c) }
    else
      scanBlockLines isLiteral chomping indent rest true (place.across c)
        { scan with text := c :: scan.text }
  | c :: rest, false, place, scan =>
    if c == ' ' && decide (place.column < indent) then
      scanBlockLines isLiteral chomping indent rest false (place.across c) scan
    else if c == '\t' && decide (place.column < indent) then none
    else if isBreak c then
      scanBlockLines isLiteral chomping indent rest false (place.acrossBreak c)
        { scan with blankLines := keptBreak c :: scan.blankLines }
    else if place.column == indent then
      let scan := scan.startLine isLiteral c
      scanBlockLines isLiteral chomping indent rest true (place.across c)
        { scan with text := c :: scan.text }
    else some ⟨scan.finish chomping, c :: rest, place, true⟩

/-- Scan a block scalar after its indicator.  `outer` is the indentation around it. -/
def scanBlock (isLiteral : Bool) (outer : Int) (cs : List Char) (place : Place) :
    Option ScannedScalar := do
  let header ← scanBlockHeader cs place
  let indent ←
    match header.increment with
    | some increment => some ((max outer 0).toNat + increment)
    | none =>
      (widestIndent header.rest 0 0).map fun widest => max widest (max (outer + 1).toNat 1)
  scanBlockLines isLiteral header.chomping indent header.rest false header.place {}

end BoundedPlanning.Yaml
