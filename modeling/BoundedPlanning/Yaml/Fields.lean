import BoundedPlanning.Text.Digits
import BoundedPlanning.Yaml.Node

namespace BoundedPlanning.Yaml

/-- Computations that read the nodes of a document and may refuse them.  They know the nodes that
aliases refer to, and how many aliases may still be followed. -/
abbrev Reading := ReaderT (Array Node) (StateT Nat Option)

/-- Read a document.  A small text could stand for a huge value, so only a hundred aliases may be
followed for each part that is written. -/
def Document.read? {α : Type} (read : Node → Reading α) (document : Document) : Option α :=
  (((read document.root).run document.numbered).run (100 * document.parts)).map Prod.fst

/-- The natural number that a plain scalar writes: in decimal without leading zeros, or in another
base behind `0x`, `0o` or `0b`, and perhaps with a plus in front. -/
def naturalOfText? (text : List Char) : Option Nat :=
  let unsigned := match text with
    | '+' :: rest => rest
    | _ => text
  match unsigned with
  | '0' :: 'x' :: digits => numberInBase? 16 digits
  | '0' :: 'o' :: digits => numberInBase? 8 digits
  | '0' :: 'b' :: digits => numberInBase? 2 digits
  | ['0'] => some 0
  | '0' :: _ => none
  | digits => numberInBase? 10 digits

def integerTag : String := "tag:yaml.org,2002:int"

def isNullWord (text : String) : Bool := ["null", "Null", "NULL", "~"].contains text

namespace Node

/-- The node itself, or the node to which it refers. -/
def target : Node → Reading Node
  | .alias number => do
    match (← get), (← read)[number]? with
    | remaining + 1, some node =>
      set remaining
      return node
    | _, _ => failure
  | node => return node

def isNothing : Node → Bool
  | .scalar text style _ => text.isEmpty && style == .plain
  | _ => false

def text (node : Node) : Reading String := do
  match ← node.target with
  | .scalar text _ _ => return text
  | _ => failure

def natBelow (bound : Nat) (node : Node) : Reading Nat := do
  match ← node.target with
  | .scalar text style tag =>
    if style == .plain || (style == .literal && tag == some integerTag) then
      let value ← naturalOfText? text.toList
      if value < bound then return value else failure
    else failure
  | _ => failure

def nat32 : Node → Reading Nat := natBelow bound32

def nat64 : Node → Reading Nat := natBelow bound64

/-- The name of a choice: a scalar's text, or a tag in front of nothing or of a word for it. -/
def choiceName (node : Node) : Reading String := do
  match ← node.target with
  | .scalar text style tag =>
    match (tag.getD "").toList with
    | '!' :: name =>
      if style == .plain && (text.isEmpty || isNullWord text) then return String.ofList name
      else failure
    | _ => return text
  | _ => failure

def choice {α : Type} (ofName? : String → Option α) (node : Node) : Reading α := do
  ofName? (← node.choiceName)

def list {α : Type} (read : Node → Reading α) (node : Node) : Reading (List α) := do
  match ← node.target with
  | .sequence items => items.mapM read
  | node => if node.isNothing then return [] else failure

end Node

/-- The fields of a record in the order of their declaration; `none` where one is missing. -/
abbrev Fields := List (Option Node)

namespace Fields

/-- The only value with the given key, if there is one; repetitions are refused. -/
def single? (entries : List (String × Node)) (name : String) : Option (Option Node) :=
  match entries.filterMap fun (key, value) => if key = name then some value else none with
  | [] => some none
  | [value] => some (some value)
  | _ => none

/-- The fields with the given names.  Keys that are no scalars and repeated fields are refused;
other keys are passed over, unless the record is closed. -/
def ofNode (names : List String) (isClosed : Bool) (node : Node) : Reading Fields := do
  match ← node.target with
  | .mapping entries =>
    let entries ← entries.mapM fun (key, value) => return (← key.text, value)
    if isClosed && !entries.all fun (key, _) => names.contains key then failure
    names.mapM fun name => single? entries name
  | node => if node.isNothing then return names.map fun _ => none else failure

def required {α : Type} (fields : Fields) (i : Nat) (read : Node → Reading α) : Reading α := do
  read (← fields[i]?.getD none)

def withDefault {α : Type} (fields : Fields) (i : Nat) (read : Node → Reading α) (value : α) :
    Reading α :=
  match fields[i]?.getD none with
  | some given => read given
  | none => return value

end Fields

end BoundedPlanning.Yaml
