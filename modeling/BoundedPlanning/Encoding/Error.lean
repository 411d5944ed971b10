import BoundedPlanning.Clause
import BoundedPlanning.Encoding.Entity

namespace BoundedPlanning

/-- A quantity that a solver caps. -/
inductive Resource
  | variables
  | clauses
  deriving DecidableEq, Repr

def Resource.plural : Resource → String
  | .variables => "variables"
  | .clauses => "clauses"

def Resource.singular : Resource → String
  | .variables => "variable"
  | .clauses => "clause"

inductive EncodingError
  | encodingOverflow (step : Nat) (resource : Resource) (required limit : Nat)
  | unknownVariable (var : Nat)
  | multipleActionsPerStep (step : Nat) (actions : List Nat)
  | keyOverflow (entity : Entity) (step : Nat)
  | idSpaceExhausted
  | outOfOrder (expected requested : Nat)
  | stepNotEncoded (step : Nat)
  | invalidClause (error : ClauseError)
  deriving DecidableEq, Repr

def bracketed (items : List String) : String := "[" ++ String.intercalate ", " items ++ "]"

def ClauseError.message (error : ClauseError) : String :=
  s!"invalid clause {bracketed (error.literals.map toString)}: {error.fault.text}"

def EncodingError.message : EncodingError → String
  | .encodingOverflow step resource required limit =>
    s!"encoding step {step} needs {required} {resource.plural}, " ++
      s!"exceeding the configured cap of {limit}"
  | .unknownVariable var => s!"variable {var} was never allocated"
  | .multipleActionsPerStep step actions =>
    let shown := bracketed (actions.map fun id => s!"ActionId({id})")
    s!"step {step}: {actions.length} actions selected in sequential mode ({shown})"
  | .keyOverflow entity step =>
    s!"key for {entity.debugText} at step {step} does not fit the pairing domain"
  | .idSpaceExhausted => "variable ids exhausted"
  | .outOfOrder expected requested =>
    s!"step {requested} requested, next step to encode is {expected}"
  | .stepNotEncoded step => s!"step {step} has not been encoded yet"
  | .invalidClause error => error.message

end BoundedPlanning
