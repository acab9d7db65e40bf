import Wireloom.Predicate.Basic

/-!
# `PredicateRegistry` — predicates as JSON

A predicate is stored as an object with its kind under `type` and its parameter beside it. It is read back by
the constructor that a registry has for the kind.
-/

namespace Wireloom

/-! ## Fields of configurations -/

namespace Json

def field (j : Json) (key : String) : Except CompileError Json :=
  match j.get? key with
  | some v => .ok v
  | none => .error (.configuration (.missingField key))

/-- A field of a configuration as a part that is smaller than the whole. -/
def part (j : Json) (key : String) : Except CompileError { v : Json // sizeOf v < sizeOf j } :=
  match h : j.get? key with
  | some v => .ok ⟨v, sizeOf_get?_lt h⟩
  | none => .error (.configuration (.missingField key))

/-- The items of an array as parts that are smaller than the whole. -/
def parts? (j : Json) : Option (List { v : Json // sizeOf v < sizeOf j }) :=
  match h : j.array? with
  | some items => some (items.attach.map fun ⟨v, hv⟩ => ⟨v, sizeOf_item_lt h hv⟩)
  | none => none

def stringField (j : Json) (key : String) : Except CompileError String := do
  match (← j.field key).string? with
  | some s => .ok s
  | none => .error (.configuration (.notString key))

/-- What a value describes; a value that has not the right shape is malformed. -/
def described {α : Type} : Option α → Except CompileError α
  | some a => .ok a
  | none => .error .malformed

end Json

def Predicate.toJson : Predicate → Except CompileError Json
  | gateSet allowed =>
    .ok (.ofFields [("type", .string PredicateKind.gateSet.name),
      ("allowed_types", .array (allowed.toList.map .string))])
  | maxQubits n =>
    .ok (.ofFields [("type", .string PredicateKind.maxQubits.name), ("n_qubits", .ofNat n)])
  | connectivity device =>
    .ok (.ofFields [("type", .string PredicateKind.connectivity.name),
      ("coupling_map", device.toJson)])
  | userDefined _ => .error (.configuration .userPredicate)
  | property t => .ok (.ofFields [("type", .string t.name)])

abbrev PredicateConstructor := Json → Except CompileError Predicate

structure PredicateRegistry where
  constructors : SortedMap String PredicateConstructor := .empty

namespace PredicateRegistry

def register (r : PredicateRegistry) (name : String) (make : PredicateConstructor) : PredicateRegistry :=
  ⟨r.constructors.insert name make⟩

def contains (r : PredicateRegistry) (name : String) : Bool := r.constructors.contains name

/-- The predicate that a configuration describes. -/
def read (r : PredicateRegistry) (j : Json) : Except CompileError Predicate := do
  let name ← j.stringField "type"
  match r.constructors.get? name with
  | some make => make j
  | none => .error (.configuration (.unknownPredicate name))

def makeGateSet : PredicateConstructor := fun j => do
  let names ← Json.described ((← j.field "allowed_types").listOf? Json.string?)
  return .gateSet (.ofList names)

def makeMaxQubits : PredicateConstructor := fun j => do
  match (← j.field "n_qubits").nat? with
  | some n => return .maxQubits n
  | none => .error (.configuration .qubitCount)

def makeConnectivity : PredicateConstructor := fun j => do
  let device ← Json.described (Coupling.ofJson? (← j.field "coupling_map"))
  return .connectivity device.rebuild

/-- The registry of all predicates that can be stored. -/
def library : PredicateRegistry :=
  let withParameter : PredicateRegistry := ⟨.ofList [
    (PredicateKind.gateSet.name, makeGateSet),
    (PredicateKind.maxQubits.name, makeMaxQubits),
    (PredicateKind.connectivity.name, makeConnectivity)]⟩
  Property.all.foldl (fun r t => r.register t.name fun _ => .ok (.property t)) withParameter

end PredicateRegistry

end Wireloom
