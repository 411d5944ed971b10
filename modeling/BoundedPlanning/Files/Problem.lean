import BoundedPlanning.Files.Content
import BoundedPlanning.Problem.Builder
import BoundedPlanning.Yaml.Fields

namespace BoundedPlanning

open Yaml

structure NamedAction where
  name : String
  pre : List String
  preNeg : List String
  add : List String
  del : List String
  deriving DecidableEq, Repr

structure DomainFile where
  facts : List String
  actions : List NamedAction
  deriving DecidableEq, Repr

structure NamedGoal where
  pos : List String
  neg : List String
  deriving DecidableEq, Repr

structure ProblemFile where
  init : List String
  goal : NamedGoal
  deriving DecidableEq, Repr

def namesOfNode : Node → Reading (List String) := Node.list Node.text

def NamedAction.ofNode (node : Node) : Reading NamedAction := do
  let fields ← Fields.ofNode ["name", "pre", "pre_neg", "add", "del"] true node
  return {
    name := ← fields.required 0 Node.text
    pre := ← fields.withDefault 1 namesOfNode []
    preNeg := ← fields.withDefault 2 namesOfNode []
    add := ← fields.withDefault 3 namesOfNode []
    del := ← fields.withDefault 4 namesOfNode [] }

def DomainFile.ofNode (node : Node) : Reading DomainFile := do
  let fields ← Fields.ofNode ["facts", "actions"] true node
  return {
    facts := ← fields.required 0 namesOfNode
    actions := ← fields.withDefault 1 (Node.list NamedAction.ofNode) [] }

def NamedGoal.ofNode (node : Node) : Reading NamedGoal := do
  let fields ← Fields.ofNode ["pos", "neg"] true node
  return {
    pos := ← fields.withDefault 0 namesOfNode []
    neg := ← fields.withDefault 1 namesOfNode [] }

def ProblemFile.ofNode (node : Node) : Reading ProblemFile := do
  let fields ← Fields.ofNode ["init", "goal"] true node
  return {
    init := ← fields.withDefault 0 namesOfNode []
    goal := ← fields.withDefault 1 NamedGoal.ofNode ⟨[], []⟩ }

/-- Where a name was used. -/
inductive NameOwner
  | action (name : String)
  | initialState
  | goal
  deriving DecidableEq, Repr

def NameOwner.text : NameOwner → String
  | .action name => s!"action `{name}`"
  | .initialState => "the initial state"
  | .goal => "the goal"

inductive LoadError
  | file (error : FileError)
  | unknownFact (name : String) (owner : NameOwner)
  | problem (error : ProblemError)
  deriving DecidableEq, Repr

def LoadError.message : LoadError → String
  | .file error => error.message
  | .unknownFact name owner => s!"unknown fact `{name}` in {owner.text}"
  | .problem error => error.message

namespace ProblemBuilder

def addFacts (builder : ProblemBuilder) (names : List String) :
    Except ProblemError ProblemBuilder :=
  names.foldlM (fun builder name => (builder.addFact name).map Prod.snd) builder

def resolveNames (builder : ProblemBuilder) (owner : NameOwner) (names : List String) :
    Except LoadError (List Nat) :=
  names.mapM fun name =>
    match builder.lookup name with
    | some id => .ok id
    | none => .error (.unknownFact name owner)

def resolveAction (builder : ProblemBuilder) (action : NamedAction) : Except LoadError Action := do
  let owner := NameOwner.action action.name
  return {
    name := action.name
    pre := ← builder.resolveNames owner action.pre
    preNeg := ← builder.resolveNames owner action.preNeg
    add := ← builder.resolveNames owner action.add
    del := ← builder.resolveNames owner action.del }

end ProblemBuilder

/-- The problem of a domain and a problem file. -/
def resolve (domain : DomainFile) (problem : ProblemFile) : Except LoadError Problem := do
  let builder ← (ProblemBuilder.empty.addFacts domain.facts).mapError .problem
  let actions ← domain.actions.mapM builder.resolveAction
  let builder := actions.foldl (fun builder action => (builder.addAction action).2) builder
  let init ← builder.resolveNames .initialState problem.init
  let builder := init.foldl ProblemBuilder.addInit builder
  let pos ← builder.resolveNames .goal problem.goal.pos
  let builder := pos.foldl ProblemBuilder.addGoalTrue builder
  let neg ← builder.resolveNames .goal problem.goal.neg
  let builder := neg.foldl ProblemBuilder.addGoalFalse builder
  builder.build.mapError .problem

def DomainFile.load (files : Files) (path : String) : Except FileError DomainFile :=
  files.load "domain" path fun text => (Document.ofText? text).bind (Document.read? ofNode)

def ProblemFile.load (files : Files) (path : String) : Except FileError ProblemFile :=
  files.load "problem" path fun text => (Document.ofText? text).bind (Document.read? ofNode)

def loadProblem (files : Files) (domainPath problemPath : String) : Except LoadError Problem := do
  let domain ← (DomainFile.load files domainPath).mapError .file
  let problem ← (ProblemFile.load files problemPath).mapError .file
  resolve domain problem

end BoundedPlanning
