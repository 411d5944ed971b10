namespace BoundedPlanning

/-- The bytes of the file with a given path, if there is one. -/
abbrev Files := String → Option ByteArray

inductive FileAction
  | read
  | parse
  deriving DecidableEq, Repr

def FileAction.text : FileAction → String
  | .read => "read"
  | .parse => "parse"

structure FileError where
  action : FileAction
  /-- What the file was to hold. -/
  content : String
  path : String
  deriving DecidableEq, Repr

def FileError.message (error : FileError) : String :=
  s!"Failed to {error.action.text} {error.content} from {error.path}"

def Files.load {α : Type} (files : Files) (content path : String) (parse : String → Option α) :
    Except FileError α :=
  match (files path).bind String.fromUTF8? with
  | none => .error ⟨.read, content, path⟩
  | some text =>
    match parse text with
    | none => .error ⟨.parse, content, path⟩
    | some value => .ok value

end BoundedPlanning
