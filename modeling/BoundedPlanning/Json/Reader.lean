import BoundedPlanning.Json.Token
import BoundedPlanning.Json.Value

namespace BoundedPlanning

/-- An array or object that is not closed yet, its last part first. -/
inductive JsonFrame
  | array (items : List JsonValue)
  | object (entries : List (Option String × JsonValue))
  | entry (key : Option String) (entries : List (Option String × JsonValue))

inductive JsonNext
  | value
  | firstItem
  | firstKey
  | key
  | colon
  | separator (done : JsonValue)

structure JsonMachine where
  frames : List JsonFrame
  next : JsonNext

namespace JsonMachine

def start : JsonMachine := ⟨[], .value⟩

def simpleValue? : JsonToken → Option JsonValue
  | .null => some .null
  | .bool value => some (.bool value)
  | .natural value => some (.natural value)
  | .otherNumber text => some (.otherNumber text)
  | .string text? => some (.string text?)
  | _ => none

def startValue (frames : List JsonFrame) (token : JsonToken) : Option JsonMachine :=
  match token with
  | .openArray => some ⟨.array [] :: frames, .firstItem⟩
  | .openObject => some ⟨.object [] :: frames, .firstKey⟩
  | _ => (simpleValue? token).map fun value => ⟨frames, .separator value⟩

def startEntry (frames : List JsonFrame) (token : JsonToken) : Option JsonMachine :=
  match token, frames with
  | .string key, .object entries :: frames => some ⟨.entry key entries :: frames, .colon⟩
  | _, _ => none

def afterValue (frames : List JsonFrame) (done : JsonValue) (token : JsonToken) :
    Option JsonMachine :=
  match token, frames with
  | .comma, .array items :: frames => some ⟨.array (done :: items) :: frames, .value⟩
  | .comma, .entry key entries :: frames => some ⟨.object ((key, done) :: entries) :: frames, .key⟩
  | .closeArray, .array items :: frames =>
    some ⟨frames, .separator (.array (done :: items).reverse)⟩
  | .closeObject, .entry key entries :: frames =>
    some ⟨frames, .separator (.object ((key, done) :: entries).reverse)⟩
  | _, _ => none

def step (machine : JsonMachine) (token : JsonToken) : Option JsonMachine :=
  match machine.next with
  | .value => startValue machine.frames token
  | .firstItem =>
    match token, machine.frames with
    | .closeArray, .array _ :: frames => some ⟨frames, .separator (.array [])⟩
    | _, frames => startValue frames token
  | .firstKey =>
    match token, machine.frames with
    | .closeObject, .object _ :: frames => some ⟨frames, .separator (.object [])⟩
    | _, frames => startEntry frames token
  | .key => startEntry machine.frames token
  | .colon =>
    match token with
    | .colon => some ⟨machine.frames, .value⟩
    | _ => none
  | .separator done => afterValue machine.frames done token

def finish (machine : JsonMachine) : Option JsonValue :=
  match machine.frames, machine.next with
  | [], .separator done => some done
  | _, _ => none

end JsonMachine

namespace JsonValue

def ofTokens? (tokens : List JsonToken) : Option JsonValue :=
  (tokens.foldlM JsonMachine.step JsonMachine.start).bind JsonMachine.finish

/-- Read a text that holds one value and nothing else. -/
def ofText? (text : String) : Option JsonValue :=
  (JsonToken.scan text.toList).bind ofTokens?

end JsonValue

end BoundedPlanning
