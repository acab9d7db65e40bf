import Wireloom.Unit.Basic

/-!
# `CircuitError` — why a circuit operation fails

Every failure is a cause with the data that explains it; `CircuitError.message` is the only place where
causes are put into words. `Invalidity` gathers the ways in which a circuit, or what is asked of it, is not
well formed, `Unsupported` what is well formed but has no meaning here.
-/

namespace Wireloom

/-- Ways in which a circuit, or a request to it, is not well formed. -/
inductive Invalidity where
  -- operations
  | conditionTooLarge (value width : Nat)
  | conditionTooWide
  | notConditional
  | writesCondition
  | notOperation
  | removesBoundary
  -- units
  | registerClash (register : String) (clash : UnitId)
  | unitExists (unit : UnitId)
  | inputUnregistered
  | renameKind (old new : UnitId)
  | renameCollision (target : UnitId)
  -- opgroups
  | opgroupSignature (op opgroup : String)
  | opgroupCollision
  | opgroupPresent
  | opgroupDisagreement (opgroup : String)
  | replacementCollision
  | replacementSignature (opgroup : String)
  | operationSignature (op opgroup : String)
  | signaturesDiffer (current replacement : String)
  -- regions and holes
  | regionHasBoundary
  | regionReentered
  | regionEnteredTwice (unit : UnitId)
  | regionReadTwice (unit : UnitId)
  | holeMismatch
  | holeReadOnly (unit : UnitId)
  | holeReadUnmatched
  -- composition
  | appendToDiscarded
  -- integrity
  | cyclic
  | cyclicWiring
  | boundaryKind (unit : UnitId)
  | inputWiring (unit : UnitId)
  | outputWiring (unit : UnitId)
  | inputCount (label : String) (edges pins : Nat)
  | inputKind (label : String) (pin : Nat) (expected found : WireKind)
  | outputKind (label : String) (pin : Nat) (found : WireKind)
  | boundaryCount
  deriving DecidableEq

inductive Unsupported where
  | reverseOperation (name : String)
  | reverseCreated
  | reverseReads
  | mergeSharedUnit (unit : UnitId)
  | mergeRegisterKind (register : String)
  deriving DecidableEq

inductive CircuitError where
  | invalid (cause : Invalidity)
  | unsupported (cause : Unsupported)
  | simpleOnly
  | missingVertex
  | missingEdge
  | unitNotFound (unit : UnitId)
  | duplicateUnit (unit : UnitId)
  | argumentCount (op : String) (expected got : Nat)
  | unitKind (unit : UnitId) (expected : UnitKind)
  deriving DecidableEq

/-- The code of a sort of failure; it stays the same when the wording of messages changes. -/
def CircuitError.code : CircuitError → String
  | invalid _ => "CircuitInvalidity"
  | unsupported _ => "Unsupported"
  | simpleOnly => "SimpleOnly"
  | missingVertex => "MissingVertex"
  | missingEdge => "MissingEdge"
  | unitNotFound _ => "UnitNotFound"
  | duplicateUnit _ => "DuplicateUnit"
  | argumentCount _ _ _ => "ArgumentCountMismatch"
  | unitKind _ _ => "UnitKindMismatch"

def Invalidity.message : Invalidity → String
  | conditionTooLarge value width => s!"Condition value {value} does not fit in {width} bits"
  | conditionTooWide => "Condition is too wide"
  | notConditional => "substitute_conditional called with an unconditional operation"
  | writesCondition => "Cannot add a condition to a circuit that writes a condition bit"
  | notOperation => "Vertex is not an operation"
  | removesBoundary => "Cannot remove a boundary vertex"
  | registerClash register clash =>
    "Register " ++ register ++ " is already used by " ++ clash.text ++ " with a different type"
  | unitExists unit => "A unit with id " ++ unit.text ++ " already exists"
  | inputUnregistered => "Input vertex is not registered in the boundary"
  | renameKind old new => "Cannot rename " ++ old.text ++ " to " ++ new.text ++ ": unit kinds differ"
  | renameCollision target => "Cannot rename units: " ++ target.text ++ " would appear twice"
  | opgroupSignature op opgroup =>
    "Cannot add op " ++ op ++ " to opgroup " ++ opgroup ++ " with a different signature"
  | opgroupCollision => "Name collision in inserted circuit"
  | opgroupPresent => "Inserted circuit contains opgroup names"
  | opgroupDisagreement opgroup =>
    "Opgroup " ++ opgroup ++ " has different signatures in the two circuits"
  | replacementCollision => "Name collision in replacement circuit"
  | replacementSignature opgroup =>
    "Replacement circuit does not match the signature of opgroup " ++ opgroup
  | operationSignature op opgroup =>
    "Operation " ++ op ++ " does not match the signature of opgroup " ++ opgroup
  | signaturesDiffer current replacement =>
    "Cannot replace " ++ current ++ " with " ++ replacement ++ ": signatures differ"
  | regionHasBoundary => "Subcircuit cannot contain boundary vertices"
  | regionReentered => "Subcircuit is not convex: a path leaves it and re-enters"
  | regionEnteredTwice unit => "Subcircuit is not convex: " ++ unit.text ++ " enters it twice"
  | regionReadTwice unit => "Subcircuit is not convex: " ++ unit.text ++ " is read at two points"
  | holeMismatch => "Subcircuit boundary mismatch to hole"
  | holeReadOnly unit =>
    "Cannot substitute a circuit writing to " ++ unit.text ++ ", which the hole only reads"
  | holeReadUnmatched => "Boolean read leaving the hole has no matching classical out-hole"
  | appendToDiscarded => "Cannot append input qubit to discarded qubit"
  | cyclic => "Circuit graph contains a cycle"
  | cyclicWiring => "Graph contains a cycle"
  | boundaryKind unit => "Unit " ++ unit.text ++ " has malformed boundary vertices"
  | inputWiring unit => "Input of " ++ unit.text ++ " is not the start of a wire"
  | outputWiring unit => "Output of " ++ unit.text ++ " is not the end of a wire"
  | inputCount label edges pins =>
    "Operation " ++ label ++ s!" has {edges} in-edges for {pins} ports"
  | inputKind label pin expected found =>
    "Operation " ++ label ++ " expects " ++ expected.text ++ s!" on port {pin}, found " ++ found.text
  | outputKind label pin found =>
    "Operation " ++ label ++ " emits " ++ found.text ++ s!" on port {pin}"
  | boundaryCount => "Boundary vertices do not match the unit boundary"

def Unsupported.message : Unsupported → String
  | reverseOperation name => "Cannot dagger or transpose op: " ++ name
  | reverseCreated => "Cannot reverse a circuit with created or discarded qubits"
  | reverseReads => "Cannot reverse a circuit with Boolean reads"
  | mergeSharedUnit unit => "Cannot merge circuits with a shared unit " ++ unit.text
  | mergeRegisterKind register =>
    "Cannot merge circuits: register " ++ register ++ " has different kinds"

def CircuitError.message : CircuitError → String
  | invalid cause => "Circuit invalidity: " ++ cause.message
  | unsupported cause => "Unsupported: " ++ cause.message
  | simpleOnly => "Function only allowed for simple circuits (default registers only)"
  | missingVertex => "Vertex not found in circuit graph"
  | missingEdge => "Edge not found in circuit graph"
  | unitNotFound unit => "Unit " ++ unit.text ++ " not found in circuit"
  | duplicateUnit unit => "Duplicate unit " ++ unit.text
  | argumentCount op expected got =>
    "Operation '" ++ op ++ s!"' expects {expected} arguments, got {got}"
  | unitKind unit expected =>
    "Unit " ++ unit.text ++ " cannot be used where a " ++ expected.text ++ " unit is expected"

end Wireloom
