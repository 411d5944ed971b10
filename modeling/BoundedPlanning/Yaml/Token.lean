import BoundedPlanning.Yaml.Scalar

/-!
The tokens of a YAML text.  The indentation of lines becomes tokens of its own: a block starts
where a line is indented further than those around it and ends where one is indented less.  A
colon makes the scalar or collection before it a key, so the scanner remembers where a key could
start and puts the key's token there afterwards.  Tags are sequences of bytes, which need not be
text.
-/

namespace BoundedPlanning.Yaml

inductive Token
  | versionDirective (major minor : Nat)
  | tagDirective (handle : String) (start : List UInt8)
  | documentStart
  | documentEnd
  | blockSequenceStart
  | blockMappingStart
  | blockEnd
  | flowSequenceStart
  | flowSequenceEnd
  | flowMappingStart
  | flowMappingEnd
  | blockEntry
  | flowEntry
  | key
  | value
  | alias (name : String)
  | anchor (name : String)
  | tag (handle : String) (suffix : List UInt8)
  | scalar (text : String) (style : ScalarStyle)
  deriving DecidableEq, Repr

/-- A place where a key may have started. -/
structure PossibleKey where
  token : Nat
  place : Place
  /-- Whether nothing but a key can start there. -/
  required : Bool

structure Scanner where
  rest : List Char
  place : Place := {}
  tokens : Array Token := #[]
  /-- The column of the innermost block, -1 outside blocks. -/
  indent : Int := -1
  outerIndents : List Int := []
  keyAllowed : Bool := true
  blockKey : Option PossibleKey := none
  /-- The keys that may have started inside brackets, one for each that is open, the innermost
  first. -/
  flowKeys : List (Option PossibleKey) := []

namespace Scanner

def inFlow (s : Scanner) : Bool := !s.flowKeys.isEmpty

def setPossibleKey (s : Scanner) (key : Option PossibleKey) : Scanner :=
  match s.flowKeys with
  | [] => { s with blockKey := key }
  | _ :: outer => { s with flowKeys := key :: outer }

def push (s : Scanner) (token : Token) : Scanner := { s with tokens := s.tokens.push token }

def advance (s : Scanner) (count : Nat) : Scanner :=
  { s with rest := s.rest.drop count, place := s.place.acrossAll (s.rest.take count) }

/-- Go over blanks, line breaks and comments, and over byte order marks at the front of lines.
Tabs may be forbidden up to the next line break, and are always forbidden after it outside
brackets, where a key may start. -/
def skipBlank (inFlow : Bool) : List Char → Place → (tabsAllowed inComment broken : Bool) →
    List Char × Place × Bool
  | [], place, _, _, broken => ([], place, broken)
  | '\r' :: '\n' :: rest, place, _, _, _ =>
    skipBlank inFlow rest place.acrossReturn inFlow false true
  | c :: rest, place, tabsAllowed, inComment, broken =>
    if isBreak c then skipBlank inFlow rest (place.acrossBreak c) inFlow false true
    else if inComment || c == ' ' || (c == '\t' && tabsAllowed) ||
        (c == byteOrderMark && place.column == 0) then
      skipBlank inFlow rest (place.across c) tabsAllowed inComment broken
    else if c == '#' then skipBlank inFlow rest (place.across c) tabsAllowed true broken
    else (c :: rest, place, broken)

def skipToToken (s : Scanner) : Scanner :=
  let (rest, place, broken) :=
    skipBlank s.inFlow s.rest s.place (s.inFlow || !s.keyAllowed) false false
  { s with rest := rest, place := place, keyAllowed := s.keyAllowed || (broken && !s.inFlow) }

/-- Whether a key can no longer have started there: keys stay on one line and are short. -/
def isStale (s : Scanner) (key : PossibleKey) : Bool :=
  decide (key.place.line < s.place.line) || decide (key.place.offset + 1024 < s.place.offset)

/-- Forget the key at a place where none can have started; it is refused if one was required. -/
def dropKey : Option PossibleKey → Option (Option PossibleKey)
  | some key => if key.required then none else some none
  | none => some none

/-- Forget the key outside brackets if it is stale.  Keys inside brackets are never required, so
that they may be forgotten later. -/
def dropStaleKey (s : Scanner) : Option Scanner :=
  if s.blockKey.any s.isStale then (dropKey s.blockKey).map fun key => { s with blockKey := key }
  else some s

def possibleKey (s : Scanner) : Option PossibleKey :=
  match s.flowKeys with
  | [] => s.blockKey
  | key :: _ => key.filter fun key => !s.isStale key

def removeKey (s : Scanner) : Option Scanner := (dropKey s.possibleKey).map s.setPossibleKey

def saveKey (s : Scanner) : Option Scanner :=
  if s.keyAllowed then do
    let s ← s.removeKey
    return s.setPossibleKey (some {
      token := s.tokens.size
      place := s.place
      required := !s.inFlow && s.indent == (s.place.column : Int) })
  else some s

def unrollFrom (s : Scanner) (column : Int) : List Int → Scanner
  | [] => s
  | outer :: rest =>
    if column < s.indent then
      ({ s.push .blockEnd with indent := outer, outerIndents := rest }).unrollFrom column rest
    else s

/-- End the blocks that are indented further than the given column, outside brackets. -/
def unroll (s : Scanner) (column : Int) : Scanner :=
  if s.inFlow then s else s.unrollFrom column s.outerIndents

/-- Start a block at the given column, if it is indented further than the innermost one; its token
goes to the given place. -/
def roll (s : Scanner) (column : Nat) (place : Nat) (token : Token) : Scanner :=
  if !s.inFlow && decide (s.indent < (column : Int)) then
    { s with
      indent := column
      outerIndents := s.indent :: s.outerIndents
      tokens := s.tokens.insertIdxIfInBounds place token }
  else s

def pushSign (s : Scanner) (token : Token) : Scanner := (s.advance 1).push token

def scanDocumentMarker (s : Scanner) (token : Token) : Option Scanner := do
  let s ← (s.unroll (-1)).removeKey
  return ({ s with keyAllowed := false }.advance 3).push token

def scanFlowStart (s : Scanner) (token : Token) : Option Scanner := do
  let s ← s.saveKey
  return { s with flowKeys := none :: s.flowKeys, keyAllowed := true }.pushSign token

def scanFlowEnd (s : Scanner) (token : Token) : Option Scanner := do
  let s ← s.removeKey
  return { s with flowKeys := s.flowKeys.drop 1, keyAllowed := false }.pushSign token

def scanFlowEntry (s : Scanner) : Option Scanner := do
  let s ← s.removeKey
  return { s with keyAllowed := true }.pushSign .flowEntry

def scanBlockEntry (s : Scanner) : Option Scanner := do
  if !s.inFlow && !s.keyAllowed then none
  else
    let s ← (s.roll s.place.column s.tokens.size .blockSequenceStart).removeKey
    return { s with keyAllowed := true }.pushSign .blockEntry

def scanKey (s : Scanner) : Option Scanner := do
  if !s.inFlow && !s.keyAllowed then none
  else
    let s ← (s.roll s.place.column s.tokens.size .blockMappingStart).removeKey
    return { s with keyAllowed := !s.inFlow }.pushSign .key

/-- Scan the colon of a value.  If a key may have started at the present level, it did. -/
def scanValue (s : Scanner) : Option Scanner :=
  match s.possibleKey with
  | some key =>
    let s := { s with tokens := s.tokens.insertIdxIfInBounds key.token .key }
    let s := (s.roll key.place.column key.token .blockMappingStart).setPossibleKey none
    some ({ s with keyAllowed := false }.pushSign .value)
  | none =>
    if !s.inFlow && !s.keyAllowed then none
    else
      let s := s.roll s.place.column s.tokens.size .blockMappingStart
      some ({ s with keyAllowed := !s.inFlow }.pushSign .value)

def scanName (s : Scanner) (token : String → Token) : Option Scanner := do
  let s ← s.saveKey
  let cs := s.rest.drop 1
  let name := cs.takeWhile isNameChar
  let rest := cs.dropWhile isNameChar
  let isEnd :=
    match rest with
    | c :: _ => startsBlank rest || "?:,]\x7d%@`".toList.contains c
    | [] => true
  if name.isEmpty || !isEnd then none
  else
    let s := { s with keyAllowed := false }.advance (name.length + 1)
    return s.push (token (String.ofList name))

def pushScalar (s : Scanner) (style : ScalarStyle) (scanned : Option ScannedScalar) :
    Option Scanner :=
  scanned.map fun scanned =>
    { s with rest := scanned.rest, place := scanned.place }.push
      (.scalar (String.ofList scanned.text) style)

def scanQuoted (s : Scanner)
    (scan : List Char → Place → Gap → List Char → Option ScannedScalar) : Option Scanner := do
  let s ← s.saveKey
  let opened := s.advance 1
  pushScalar { s with keyAllowed := false } .quoted (scan opened.rest opened.place {} [])

def scanBlockScalar (s : Scanner) (style : ScalarStyle) : Option Scanner := do
  let s ← s.removeKey
  let opened := s.advance 1
  pushScalar { s with keyAllowed := true } style
    (scanBlock (style == .literal) s.indent opened.rest opened.place)

def scanPlainScalar (s : Scanner) : Option Scanner := do
  let s ← s.saveKey
  let scanned ← scanPlain s.inFlow (s.indent + 1).toNat s.rest s.place {} []
  pushScalar { s with keyAllowed := scanned.endedLine } .plain (some scanned)

/-! ### Tags and directives -/

/-- Characters of a tag; those of the second kind only between angle brackets. -/
def isTagChar (isVerbatim : Bool) (c : Char) : Bool :=
  isNameChar c || ";/?:@&=+$.!~*'()%".toList.contains c || (isVerbatim && ",[]".toList.contains c)

/-- How many bytes a character takes whose first byte is the given one. -/
def encodedWidth? (first : UInt8) : Option Nat :=
  if first < 0x80 then some 1
  else if 0xc0 ≤ first && first < 0xe0 then some 2
  else if 0xe0 ≤ first && first < 0xf0 then some 3
  else if 0xf0 ≤ first && first < 0xf8 then some 4
  else none

/-- The bytes of a tag.  Some may be written as escapes; of a character that starts with an escape
all bytes are, `missing` more of them.  Whether they are the bytes of a character beyond that is
not looked at. -/
def tagBytes? : List Char → (missing : Nat) → Option (List UInt8)
  | [], missing => if missing = 0 then some [] else none
  | '%' :: a :: b :: rest, missing => do
    let byte := UInt8.ofNat ((← hexDigit? a) * 16 + (← hexDigit? b))
    match missing with
    | 0 => return byte :: (← tagBytes? rest ((← encodedWidth? byte) - 1))
    | missing + 1 =>
      if 0x80 ≤ byte && byte < 0xc0 then return byte :: (← tagBytes? rest missing) else none
  | c :: rest, missing =>
    if c == '%' || missing != 0 then none
    else return UInt8.ofNat c.toNat :: (← tagBytes? rest 0)

/-- The bytes that the characters of a tag stand for.  A zero byte ends the tag, whatever follows
it. -/
def decodeTag? (cs : List Char) : Option (List UInt8) :=
  (tagBytes? cs 0).map fun bytes => bytes.takeWhile (· != 0)

/-- The handle at the front: a mark, name characters and perhaps a second mark. -/
def splitHandle (cs : List Char) : Option (List Char × List Char) :=
  match cs with
  | '!' :: rest =>
    let name := rest.takeWhile isNameChar
    match rest.dropWhile isNameChar with
    | '!' :: rest => some ('!' :: name ++ ['!'], rest)
    | rest => some ('!' :: name, rest)
  | _ => none

structure WrittenTag where
  /-- The name of what the suffix is put behind; nothing if the suffix is the whole tag. -/
  handle : String
  suffix : List UInt8
  length : Nat

def splitTag (cs : List Char) : Option (WrittenTag × List Char) :=
  match cs with
  | '!' :: '<' :: rest => do
    let suffix := rest.takeWhile (isTagChar true)
    if suffix.isEmpty then none
    else
      match rest.dropWhile (isTagChar true) with
      | '>' :: rest => return (⟨"", ← decodeTag? suffix, suffix.length + 3⟩, rest)
      | _ => none
  | _ => do
    let (handle, rest) ← splitHandle cs
    let suffix := rest.takeWhile (isTagChar false)
    let after := rest.dropWhile (isTagChar false)
    let length := handle.length + suffix.length
    if 1 < handle.length && handle.getLast? == some '!' then
      if suffix.isEmpty then none
      else return (⟨String.ofList handle, ← decodeTag? suffix, length⟩, after)
    else
      let suffix ← decodeTag? (handle.drop 1 ++ suffix)
      return (if suffix.isEmpty then ⟨"", "!".toUTF8.toList, length⟩ else ⟨"!", suffix, length⟩,
        after)

def scanTag (s : Scanner) : Option Scanner := do
  let s ← s.saveKey
  let (tag, rest) ← splitTag s.rest
  if startsBlank rest || (s.inFlow && rest.head? == some ',') then
    return ({ s with keyAllowed := false }.advance tag.length).push (.tag tag.handle tag.suffix)
  else none

def splitNumber (cs : List Char) : Option (Nat × List Char) :=
  let digits := cs.takeWhile Char.isDigit
  if digits.isEmpty || 9 < digits.length then none
  else
    some (decimalValue digits, cs.dropWhile Char.isDigit)

def splitDirective (name : String) (cs : List Char) : Option (Token × List Char) :=
  let cs := cs.dropWhile isBlank
  match name with
  | "YAML" => do
    let (major, cs) ← splitNumber cs
    match cs with
    | '.' :: cs =>
      let (minor, cs) ← splitNumber cs
      return (.versionDirective major minor, cs)
    | _ => none
  | "TAG" => do
    let (handle, rest) ← splitHandle cs
    if !(handle.length == 1 || handle.getLast? == some '!') || !rest.head?.any isBlank then none
    else
      let rest := rest.dropWhile isBlank
      let start := rest.takeWhile (isTagChar true)
      let rest := rest.dropWhile (isTagChar true)
      if start.isEmpty || !startsBlank rest then none
      else return (.tagDirective (String.ofList handle) (← decodeTag? start), rest)
  | _ => none

def scanDirective (s : Scanner) : Option Scanner := do
  let s ← (s.unroll (-1)).removeKey
  let cs := s.rest.drop 1
  let name := cs.takeWhile isNameChar
  let rest := cs.dropWhile isNameChar
  if name.isEmpty || !startsBlank rest then none
  else
    let (token, rest) ← splitDirective (String.ofList name) rest
    let ended := s.advance (s.rest.length - rest.length)
    let (rest, place) ← afterLine? ended.rest ended.place
    return { ended with rest := rest, place := place, keyAllowed := false }.push token

/-! ### All tokens -/

def startsPlain (inFlow : Bool) : List Char → Bool
  | [] => false
  | c :: rest =>
    if c == '-' then !rest.head?.any isBlank
    else if c == '?' || c == ':' then !inFlow && !startsBlank rest
    else !startsBlank [c] && !",[]\x7b\x7d#&*!|>'\"%@`".toList.contains c

def scanToken (s : Scanner) : Option Scanner :=
  match s.rest with
  | [] => some s
  | c :: rest =>
    if s.place.column == 0 && c == '%' then s.scanDirective
    else if s.place.column == 0 && startsDocumentMarker s.rest then
      s.scanDocumentMarker (if c == '-' then .documentStart else .documentEnd)
    else if c == '[' then s.scanFlowStart .flowSequenceStart
    else if c == '\x7b' then s.scanFlowStart .flowMappingStart
    else if c == ']' then s.scanFlowEnd .flowSequenceEnd
    else if c == '\x7d' then s.scanFlowEnd .flowMappingEnd
    else if c == ',' then s.scanFlowEntry
    else if c == '-' && startsBlank rest then s.scanBlockEntry
    else if c == '?' && (s.inFlow || startsBlank rest) then s.scanKey
    else if c == ':' && (s.inFlow || startsBlank rest) then s.scanValue
    else if c == '*' then s.scanName .alias
    else if c == '&' then s.scanName .anchor
    else if c == '!' then s.scanTag
    else if c == '|' && !s.inFlow then s.scanBlockScalar .literal
    else if c == '>' && !s.inFlow then s.scanBlockScalar .folded
    else if c == '\'' then s.scanQuoted scanSingleQuoted
    else if c == '"' then s.scanQuoted scanDoubleQuoted
    else if startsPlain s.inFlow s.rest then s.scanPlainScalar
    else none

def finish (s : Scanner) : Option (List Token) := do
  let s ← (s.unroll (-1)).removeKey
  return s.tokens.toList

def scanAll : Nat → Scanner → Option (List Token)
  | 0, _ => none
  | fuel + 1, s => do
    let s ← s.skipToToken.dropStaleKey
    let s := s.unroll s.place.column
    if s.rest.isEmpty then s.finish else (← s.scanToken).scanAll fuel

end Scanner

/-- The tokens of a text, or `none` if it is not well formed.  A token takes a character at
least. -/
def Token.ofText? (text : String) : Option (List Token) :=
  let chars := text.toList
  if chars.all isAllowed then ({ rest := chars } : Scanner).scanAll (chars.length + 1) else none

end BoundedPlanning.Yaml
