namespace BoundedPlanning.CommandLine

/-- An option that was given, with its value as it was written. -/
inductive Setting
  | domain (path : String)
  | problem (path : String)
  | timeout (text : String)
  | maxSteps (text : String)
  | config (path : String)
  | parallel
  | backend (name : String)
  | report (path : String)
  | verbose
  deriving DecidableEq, Repr

inductive Ending
  | complete
  | help
  | version
  | misuse
  deriving DecidableEq, Repr

structure Scanned where
  settings : List Setting
  ending : Ending
  deriving DecidableEq, Repr

inductive Effect
  | flag (setting : Setting)
  | value (setting : String → Setting)
  | stop (ending : Ending)

structure OptionSpec where
  long : String
  short : Option Char
  effect : Effect

def options : List OptionSpec :=
  [⟨"domain", some 'o', .value .domain⟩, ⟨"problem", some 'f', .value .problem⟩,
    ⟨"timeout", some 't', .value .timeout⟩, ⟨"max-steps", some 'n', .value .maxSteps⟩,
    ⟨"config", none, .value .config⟩, ⟨"parallel", none, .flag .parallel⟩,
    ⟨"backend", none, .value .backend⟩, ⟨"report", none, .value .report⟩,
    ⟨"verbose", some 'v', .flag .verbose⟩, ⟨"help", some 'h', .stop .help⟩,
    ⟨"version", some 'V', .stop .version⟩]

inductive Meaning
  | settings (settings : List Setting)
  /-- Some options, and one whose value is the next argument. -/
  | needsValue (settings : List Setting) (setting : String → Setting)
  | stop (settings : List Setting) (ending : Ending)

def longMeaning (cs : List Char) : Meaning :=
  let name := cs.takeWhile (· != '=')
  let attached : Option String :=
    match cs.dropWhile (· != '=') with
    | _ :: value => some (String.ofList value)
    | [] => none
  match options.find? fun option => option.long == String.ofList name with
  | none => .stop [] .misuse
  | some option =>
    match option.effect, attached with
    | .flag setting, none => .settings [setting]
    | .value setting, none => .needsValue [] setting
    | .value setting, some value => .settings [setting value]
    | .stop ending, none => .stop [] ending
    | _, some _ => .stop [] .misuse

/-- The meaning of short options in one argument, without the dash; the first that takes a value
takes the rest, perhaps after an equals sign. -/
def shortMeaning (settings : List Setting) : List Char → Meaning
  | [] => .settings settings
  | c :: rest =>
    match options.find? fun option => option.short == some c with
    | none => .stop settings .misuse
    | some option =>
      match option.effect with
      | .flag setting => shortMeaning (settings ++ [setting]) rest
      | .stop ending => .stop settings ending
      | .value setting =>
        match rest with
        | [] => .needsValue settings setting
        | '=' :: value => .settings (settings ++ [setting (String.ofList value)])
        | value => .settings (settings ++ [setting (String.ofList value)])

/-- The meaning of an argument; only options have one. -/
def meaning (argument : String) : Meaning :=
  match argument.toList with
  | '-' :: '-' :: name => longMeaning name
  | '-' :: c :: rest => shortMeaning [] (c :: rest)
  | _ => .stop [] .misuse

def isValue (argument : String) : Bool :=
  match argument.toList with
  | '-' :: _ :: _ => false
  | _ => true

def Scanned.after (scanned : Scanned) (settings : List Setting) : Scanned :=
  { scanned with settings := settings ++ scanned.settings }

/-- Scan all arguments.  After two dashes alone nothing may follow. -/
def scan : List String → Scanned
  | [] => ⟨[], .complete⟩
  | argument :: rest =>
    if argument == "--" then ⟨[], if rest.isEmpty then .complete else .misuse⟩
    else
      match meaning argument with
      | .settings settings => (scan rest).after settings
      | .stop settings ending => ⟨settings, ending⟩
      | .needsValue settings setting =>
        match rest with
        | value :: rest =>
          if isValue value then (scan rest).after (settings ++ [setting value])
          else ⟨settings, .misuse⟩
        | [] => ⟨settings, .misuse⟩

end BoundedPlanning.CommandLine
