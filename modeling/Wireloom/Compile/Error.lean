import Wireloom.Circuit.Error
import Wireloom.Predicate.Kind

/-!
# `CompileError` — why compiling fails

Composing passes, applying them and reading them from configurations fail for the causes listed here. As for
circuits, `CompileError.message` is the only place where causes are put into words.
-/

namespace Wireloom

inductive Incomparable where
  | differentKinds
  | userImplication
  | userMeet
  deriving DecidableEq

inductive MapFault where
  | present (unit : UnitId)
  | tracked (unit : UnitId)
  deriving DecidableEq

inductive ConfigFault where
  | missingField (key : String)
  | notString (key : String)
  | unknownPredicate (name : String)
  | qubitCount
  | unknownPass (name : String)
  | unknownClass (name : String)
  | unknownMetric (name : String)
  | sequenceNotArray
  | untilWithoutPredicate
  | userPredicate
  deriving DecidableEq

/-- Why compiling fails. -/
inductive CompileError where
  | circuit (cause : CircuitError)
  | unsatisfied (description : String)
  | incompatible (kind : PredicateKind)
  | incomparable (cause : Incomparable)
  | cacheInitialized
  | emptySequence
  | unitMaps (cause : MapFault)
  | configuration (cause : ConfigFault)
  /-- A configuration value does not have the shape of what it should describe. -/
  | malformed
  deriving DecidableEq

/-- The code of a sort of failure; a failure of the circuit keeps its own code after the word `Circuit`. -/
def CompileError.code : CompileError → String
  | circuit cause => "Circuit." ++ cause.code
  | unsatisfied _ => "UnsatisfiedPredicate"
  | incompatible _ => "IncompatiblePasses"
  | incomparable _ => "IncorrectPredicate"
  | cacheInitialized => "CacheAlreadyInitialized"
  | emptySequence => "EmptySequence"
  | unitMaps _ => "UnitMapMismatch"
  | configuration _ => "InvalidConfiguration"
  | malformed => "Json"

def Incomparable.message : Incomparable → String
  | differentKinds => "Cannot compare predicates of different subclasses"
  | userImplication => "Cannot verify implication of user defined predicates"
  | userMeet => "Cannot find the meet of user defined predicates"

def MapFault.message : MapFault → String
  | present unit => "Unit " ++ unit.text ++ " already appears in the unit maps"
  | tracked unit => "Unit " ++ unit.text ++ " is already tracked as an original unit"

def ConfigFault.message : ConfigFault → String
  | missingField key => "missing field \"" ++ key ++ "\""
  | notString key => "field \"" ++ key ++ "\" must be a string"
  | unknownPredicate name => "unknown predicate \"" ++ name ++ "\""
  | qubitCount => "n_qubits must be a non-negative integer"
  | unknownPass name => "unknown pass \"" ++ name ++ "\""
  | unknownClass name => "unknown pass class \"" ++ name ++ "\""
  | unknownMetric name => "unknown metric \"" ++ name ++ "\""
  | sequenceNotArray => "sequence must be an array"
  | untilWithoutPredicate => "RepeatUntilSatisfiedPass has an unserializable predicate"
  | userPredicate => "UserDefinedPredicate cannot be serialized"

def CompileError.message : CompileError → String
  | circuit cause => "Circuit error: " ++ cause.message
  | unsatisfied description => "Predicate requirements are not satisfied: " ++ description
  | incompatible kind =>
    "Cannot compose these passes due to mismatching predicates of type: " ++ kind.name
  | incomparable cause => cause.message
  | cacheInitialized => "Predicate cache has already been initialized"
  | emptySequence => "Cannot generate a pass from an empty sequence"
  | unitMaps cause => "Unit map mismatch: " ++ cause.message
  | configuration cause => "Invalid pass configuration: " ++ cause.message
  | malformed => "JSON error: the value does not describe what is expected here"

end Wireloom
