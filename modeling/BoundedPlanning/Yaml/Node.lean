import BoundedPlanning.Yaml.Token
import Std.Data.HashMap

/-!
YAML documents as trees.  Items, keys and values that are left out are empty plain scalars.
Aliases stay in the tree and refer to nodes by numbers; a table says which node bears which number
at the end of the document.
-/

namespace BoundedPlanning.Yaml

inductive Node
  | scalar (text : String) (style : ScalarStyle) (tag : Option String)
  | sequence (items : List Node)
  | mapping (entries : List (Node × Node))
  | alias (number : Nat)
  deriving Inhabited

namespace Node

/-- What stands where nothing is written. -/
def empty : Node := .scalar "" .plain none

end Node

structure NumberedNode where
  node : Node
  /-- How many nodes had been given a number before it. -/
  rank : Nat
  deriving Inhabited

/-- Tokens in the course of being put together. -/
structure Composer where
  tokens : List Token
  handles : List (String × List UInt8) :=
    [("!", "!".toUTF8.toList), ("!!", "tag:yaml.org,2002:".toUTF8.toList)]
  numbers : Std.HashMap String Nat := ∅
  /-- The nodes by their numbers; a node that is still open is missing. -/
  numbered : Array NumberedNode := #[]
  rank : Nat := 0
  /-- How many scalars, aliases and ends of collections were put together. -/
  parts : Nat := 0

abbrev Compose := StateT Composer Option

namespace Compose

def peek : Compose (Option Token) := do return (← get).tokens.head?

def skip : Compose Unit := modify fun composer => { composer with tokens := composer.tokens.drop 1 }

def take? (token : Token) : Compose Bool := do
  if (← peek) == some token then
    skip
    return true
  else return false

def endsAt (tokens : List Token) : Compose Bool := do
  return (← peek).all tokens.contains

def count (parts : Nat) : Compose Unit :=
  modify fun composer => { composer with parts := composer.parts + parts }

def emptyNode : Compose Node := do
  count 1
  return .empty

def aliasOf (name : String) : Compose Node := do
  count 1
  match (← get).numbers[name]? with
  | some number => return .alias number
  | none => failure

structure OpenNode where
  number : Nat
  rank : Nat

/-- Number the node that starts here, if it has a name.  The number is that of the different names
before it, so that a name that is used again shares its number with the next new name; the node
that starts last bears the number. -/
def openNode : Option String → Compose (Option OpenNode)
  | none => return none
  | some name => do
    let composer ← get
    let number := composer.numbers.size
    let node : NumberedNode := ⟨.empty, composer.rank⟩
    set { composer with
      numbers := composer.numbers.insert name number
      numbered :=
        if number < composer.numbered.size then composer.numbered.setIfInBounds number node
        else composer.numbered.push node
      rank := composer.rank + 1 }
    return some ⟨number, composer.rank⟩

/-- Note a node under its number, unless a later one bears it, and count its own parts. -/
def closeNode (opened : Option OpenNode) (parts : Nat) (node : Node) : Compose Node := do
  count parts
  if let some opened := opened then
    modify fun composer =>
      if composer.numbered[opened.number]?.any fun last => last.rank == opened.rank then
        { composer with
          numbered := composer.numbered.setIfInBounds opened.number ⟨node, opened.rank⟩ }
      else composer
  return node

def resolveTag (handle : String) (suffix : List UInt8) : Compose (List UInt8) := do
  if handle.isEmpty then return suffix
  match (← get).handles.lookup handle with
  | some start => return start ++ suffix
  | none => failure

structure Properties where
  name : Option String
  tag : Option (List UInt8)

/-- The text of the tag; a tag that is no text is as good as none. -/
def Properties.tagText? (properties : Properties) : Option String :=
  properties.tag.bind fun bytes => String.fromUTF8? (ByteArray.mk bytes.toArray)

def anchor? : Compose (Option String) := do
  match ← peek with
  | some (.anchor name) =>
    skip
    return some name
  | _ => return none

def tag? : Compose (Option (List UInt8)) := do
  match ← peek with
  | some (.tag handle suffix) =>
    skip
    return some (← resolveTag handle suffix)
  | _ => return none

def properties : Compose Properties := do
  match ← anchor? with
  | some name => return ⟨some name, ← tag?⟩
  | none =>
    let tag ← tag?
    return ⟨← anchor?, tag⟩

mutual

/-- A node.  Blocks are only allowed outside brackets, and items that are not indented further
only as the value of a key. -/
def node (fuel : Nat) (inBlock mayDash : Bool) : Compose Node :=
  match fuel with
  | 0 => failure
  | fuel + 1 => do
    if let some (.alias name) ← peek then
      skip
      return ← aliasOf name
    let properties ← properties
    let opened ← openNode properties.name
    match ← peek with
    | some (.scalar text style) =>
      skip
      closeNode opened 1 (.scalar text style properties.tagText?)
    | some .flowSequenceStart =>
      skip
      closeNode opened 2 (.sequence (← flowItems fuel true))
    | some .flowMappingStart =>
      skip
      closeNode opened 2 (.mapping (← flowEntries fuel true))
    | token =>
      if mayDash && token == some .blockEntry then
        closeNode opened 2 (.sequence (← dashedItems fuel))
      else if inBlock && token == some .blockSequenceStart then
        skip
        closeNode opened 2 (.sequence (← blockItems fuel))
      else if inBlock && token == some .blockMappingStart then
        skip
        closeNode opened 2 (.mapping (← blockEntries fuel))
      else if properties.name.isSome || properties.tag.isSome then
        closeNode opened 1 (.scalar "" .plain properties.tagText?)
      else failure

def nodeUnless (fuel : Nat) (tokens : List Token) (inBlock mayDash : Bool) : Compose Node :=
  match fuel with
  | 0 => failure
  | fuel + 1 => do
    if ← endsAt tokens then return ← emptyNode
    node fuel inBlock mayDash

def blockItems (fuel : Nat) : Compose (List Node) :=
  match fuel with
  | 0 => failure
  | fuel + 1 => do
    if ← take? .blockEntry then
      let item ← nodeUnless fuel [.blockEntry, .blockEnd] true false
      return item :: (← blockItems fuel)
    if ← take? .blockEnd then return []
    failure

/-- The items of a block that is not indented, up to something else. -/
def dashedItems (fuel : Nat) : Compose (List Node) :=
  match fuel with
  | 0 => failure
  | fuel + 1 => do
    if ← take? .blockEntry then
      let item ← nodeUnless fuel [.blockEntry, .key, .value, .blockEnd] true false
      return item :: (← dashedItems fuel)
    return []

def blockEntries (fuel : Nat) : Compose (List (Node × Node)) :=
  match fuel with
  | 0 => failure
  | fuel + 1 => do
    if ← take? .key then
      let key ← nodeUnless fuel [.key, .value, .blockEnd] true true
      let value ← blockValue fuel
      return (key, value) :: (← blockEntries fuel)
    if ← take? .blockEnd then return []
    failure

def blockValue (fuel : Nat) : Compose Node :=
  match fuel with
  | 0 => failure
  | fuel + 1 => do
    if ← take? .value then nodeUnless fuel [.key, .value, .blockEnd] true true
    else emptyNode

def flowItems (fuel : Nat) (isFirst : Bool) : Compose (List Node) :=
  match fuel with
  | 0 => failure
  | fuel + 1 => do
    if ← take? .flowSequenceEnd then return []
    if !isFirst then
      if !(← take? .flowEntry) then failure
      if ← take? .flowSequenceEnd then return []
    let item ← flowItem fuel
    return item :: (← flowItems fuel false)

/-- An item between brackets; a key makes it a mapping of one entry. -/
def flowItem (fuel : Nat) : Compose Node :=
  match fuel with
  | 0 => failure
  | fuel + 1 => do
    if ← take? .key then
      let key ←
        if ← endsAt [.value, .flowEntry, .flowSequenceEnd] then
          skip
          emptyNode
        else node fuel false false
      let value ← flowValue fuel .flowSequenceEnd
      count 2
      return .mapping [(key, value)]
    node fuel false false

def flowEntries (fuel : Nat) (isFirst : Bool) : Compose (List (Node × Node)) :=
  match fuel with
  | 0 => failure
  | fuel + 1 => do
    if ← take? .flowMappingEnd then return []
    if !isFirst then
      if !(← take? .flowEntry) then failure
      if ← take? .flowMappingEnd then return []
    let entry ← flowPair fuel
    return entry :: (← flowEntries fuel false)

/-- An entry between braces; without a key token it has no value. -/
def flowPair (fuel : Nat) : Compose (Node × Node) :=
  match fuel with
  | 0 => failure
  | fuel + 1 => do
    if ← take? .key then
      let key ← nodeUnless fuel [.value, .flowEntry, .flowMappingEnd] false false
      return (key, ← flowValue fuel .flowMappingEnd)
    return (← node fuel false false, ← emptyNode)

def flowValue (fuel : Nat) (close : Token) : Compose Node :=
  match fuel with
  | 0 => failure
  | fuel + 1 => do
    if ← take? .value then nodeUnless fuel [.flowEntry, close] false false
    else emptyNode

end

def directives (fuel : Nat) (sawVersion : Bool) (handles : List (String × List UInt8)) :
    Compose Bool :=
  match fuel with
  | 0 => failure
  | fuel + 1 => do
    match ← peek with
    | some (.versionDirective major minor) =>
      if sawVersion || major != 1 || (minor != 1 && minor != 2) then failure
      skip
      directives fuel true handles
    | some (.tagDirective handle start) =>
      if (handles.lookup handle).isSome then failure
      skip
      modify fun composer => { composer with handles := (handle, start) :: composer.handles }
      directives fuel sawVersion ((handle, start) :: handles)
    | _ => return sawVersion || !handles.isEmpty

/-- The only document of a text; a text without one is an empty document. -/
def document (fuel : Nat) : Compose Node := do
  if (← peek).isNone then return ← emptyNode
  let sawDirectives ← directives fuel false []
  let isExplicit ← take? .documentStart
  if sawDirectives && !isExplicit then failure
  let root ←
    if isExplicit then
      match ← peek with
      | none | some .documentStart | some .documentEnd => emptyNode
      | some (.versionDirective ..) | some (.tagDirective ..) => emptyNode
      | some _ => node fuel true false
    else node fuel true false
  modify fun composer =>
    { composer with tokens := composer.tokens.dropWhile (· == .documentEnd) }
  if (← peek).isSome then failure
  return root

end Compose

structure Document where
  root : Node
  numbered : Array Node
  /-- How many scalars, aliases and ends of collections are written. -/
  parts : Nat

namespace Document

def ofTokens? (tokens : List Token) : Option Document :=
  ((Compose.document (4 * tokens.length + 4)).run { tokens := tokens }).map fun (root, composer) =>
    ⟨root, composer.numbered.map NumberedNode.node, composer.parts⟩

/-- Read a text that holds at most one document. -/
def ofText? (text : String) : Option Document := (Token.ofText? text).bind ofTokens?

end Document

end BoundedPlanning.Yaml
