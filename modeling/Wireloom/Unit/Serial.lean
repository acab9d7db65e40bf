import Wireloom.Unit.Basic
import Wireloom.Json.Shape

/-!
# `UnitId.Serial` — units and wire kinds as JSON

Kinds are bare cases; a unit is a record of its kind, register and index.
-/

namespace Wireloom

namespace UnitKind

def storedName : UnitKind → String
  | qubit => "Qubit"
  | bit => "Bit"
  | wasm => "WasmState"
  | rng => "RngState"

def all : List UnitKind := [qubit, bit, wasm, rng]

def toJson (k : UnitKind) : Json := .string k.storedName

def ofStoredName? (name : String) : Option UnitKind := all.find? fun k => k.storedName = name

def ofJson? (j : Json) : Option UnitKind := j.bareCase?.bind ofStoredName?

end UnitKind

namespace WireKind

def all : List WireKind := [quantum, classical, boolean, wasm, rng]

def toJson (k : WireKind) : Json := .string k.text

def ofName? (name : String) : Option WireKind := all.find? fun k => k.text = name

def ofJson? (j : Json) : Option WireKind := j.bareCase?.bind ofName?

end WireKind

namespace UnitId

def toJson (u : UnitId) : Json :=
  .ofFields [("kind", u.kind.toJson), ("register", .string u.register),
    ("index", .array (u.index.map Json.ofNat))]

def ofJson? (j : Json) : Option UnitId :=
  match j.record? ["kind", "register", "index"] with
  | some [kind, register, index] => do
    return ⟨← UnitKind.ofJson? kind, ← register.string?, ← index.listOf? Json.index?⟩
  | _ => none

end UnitId

end Wireloom
