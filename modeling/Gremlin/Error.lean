/-!
# Errors

What can go wrong while a traversal is configured, compiled or run, and the message for it.
-/

namespace Gremlin

/-- A cause of failure. -/
inductive Error where
  /-- A pipeline without a serializer was asked to serialize. -/
  | unconfiguredSerializer
  /-- A pipeline without an executor was asked to execute. -/
  | unconfiguredExecutor
  /-- The model has no label or key for a type or a member. -/
  | unknownMapping (identifier : String)
  /-- A name was given to something that is not a member; the expression is shown. -/
  | invalidMappingExpression (expression : String)
  /-- A number is too large for the target. -/
  | valueRange (context : String) (value max : Int64)
  /-- Serialization nested too deeply to be more than a loop of the rules. -/
  | serializationLoop (depth : Nat)
  /-- A source was given a blank name. -/
  | invalidSourceName (name : String)
  /-- An entity to be replaced has no identifier. -/
  | missingIdentifier (typeName : String)
  /-- Data could not be turned into an entity. -/
  | invalidEntity (typeName reason : String)
  /-- The first result of an empty answer was asked for. -/
  | emptyResult
  /-- Settings could not be read. -/
  | invalidConfiguration (detail : String)
  /-- The transport failed. -/
  | transport (detail : String)
deriving DecidableEq

namespace Error

/-- The error reports a name without meaning. -/
def IsUnknown (e : Error) : Prop := ∃ identifier, e = unknownMapping identifier

/-- The message shown for an error. -/
def message : Error → String
  | unconfiguredSerializer =>
    "no serializer configured: configure a proper serializer on the query source before " ++
      "executing queries"
  | unconfiguredExecutor =>
    "no executor configured: configure a proper executor on the query source"
  | unknownMapping identifier => "unknown mapping for '" ++ identifier ++ "'"
  | invalidMappingExpression expression =>
    "member mappings require a direct member reference, got " ++ expression
  | valueRange context value max =>
    "value " ++ toString value ++ " for '" ++ context ++ "' is outside the supported range (max " ++
      toString max ++ ")"
  | serializationLoop depth =>
    "serialization recursed " ++ toString depth ++ " times, the handler chain is likely looping"
  | invalidSourceName name => "invalid query source name '" ++ name ++ "'"
  | missingIdentifier typeName =>
    "domain object of type '" ++ typeName ++ "' carries no 'id' member"
  | invalidEntity typeName reason =>
    "invalid domain object of type '" ++ typeName ++ "': " ++ reason
  | emptyResult => "query produced no results"
  | invalidConfiguration detail => "invalid configuration: " ++ detail
  | transport detail => "transport error: " ++ detail

/-- The error lies in how a source is configured and not in a traversal. -/
def isConfiguration : Error → Bool
  | unconfiguredSerializer | unconfiguredExecutor | invalidMappingExpression _
  | invalidSourceName _ | invalidConfiguration _ => true
  | _ => false

/-- The error that this one wraps. -/
def cause? : Error → Option String
  | transport detail => some detail
  | _ => none

end Error

end Gremlin
