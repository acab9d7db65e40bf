import Wireloom.Pass.Basic
import Wireloom.Circuit.Build
import Wireloom.Unit.Serial

/-!
# The structural passes

Passes that only touch unit names, barriers and blank wires. Each keeps the unit maps in step with the circuit.
-/

namespace Wireloom

namespace Drafting

variable {σ : Type}

/-- An edit of the circuit as a change of the draft. -/
def edit {α : Type} (e : Circuit.Edit α) : Drafting σ α := fun d =>
  match e d.circuit with
  | .ok a circuit => .ok a { d with circuit }
  | .error cause circuit => .error (.circuit cause) { d with circuit }

def revise {α : Type} (change : UnitMaps → α × UnitMaps) : Drafting σ α :=
  modifyGet fun d =>
    let (a, maps) := change d.maps
    (a, { d with maps })

end Drafting

namespace Transform

variable {σ : Type}

/-- Moves every unit into the default register of its kind. -/
def flattenRegisters : Drafting σ Bool := do
  if (← get).circuit.isSimple then return false
  let ρ ← Drafting.edit Circuit.flattenRegisters
  let _ ← Drafting.revise (·.rename ρ ρ)
  return true

/-- Removes every barrier that is not under a condition. -/
def removeBarriers : Drafting σ Bool := do
  let barriers := ((← get).circuit.commands.filter fun cmd => cmd.op.isBarrier).map Command.vertex
  barriers.forM fun v => Drafting.edit (Circuit.removeOp v)
  return !barriers.isEmpty

def renameUnits (ρ : Renaming) : Drafting σ Bool := do
  let changed ← Drafting.edit (Circuit.renameUnits ρ)
  let _ ← Drafting.revise (·.rename ρ ρ)
  return changed

/-- Removes the first operation, if there is any. -/
def removeFirst : Drafting σ Bool := do
  match (← get).circuit.commands with
  | [] => return false
  | cmd :: _ =>
    Drafting.edit (Circuit.removeOp cmd.vertex)
    return true

def addUnit (u : UnitId) : Drafting σ Bool := do
  Drafting.edit (Circuit.addUnit u)
  let maps ← MonadExcept.ofExcept ((← get).maps.addUnit u)
  modify fun d => { d with maps }
  return true

/-- Stops tracking a unit; tells whether it was tracked. -/
def forgetUnit (u : UnitId) : Drafting σ Bool := Drafting.revise (·.removeUnit u)

/-- Renames units in the maps only; tells whether they changed. -/
def relabel (initial final : Renaming) : Drafting σ Bool := Drafting.revise (·.rename initial final)

def removeBlankWires : Drafting σ Bool := do
  let removed ← Drafting.edit Circuit.removeBlankWires
  removed.forM fun u => discard (Drafting.revise (·.removeUnit u))
  return !removed.isEmpty

end Transform

namespace Pass

variable {σ : Type}

def flattenRegisters : Pass σ :=
  .standard "FlattenRegisters"
    { post := (Postconditions.preserveAll.ensuring (.property .defaultRegister)).treating .connectivity .clear }
    Transform.flattenRegisters .empty

def removeBarriers : Pass σ :=
  .standard "RemoveBarriers" { post := Postconditions.preserveAll.ensuring (.property .noBarriers) }
    Transform.removeBarriers .empty

def renamingConfig (ρ : Renaming) : Json :=
  .array (ρ.entries.map fun (old, new) => .array [old.toJson, new.toJson])

/-- The renaming that a list of pairs describes; a later pair with the same left side wins. -/
def renamingOfConfig? (j : Json) : Option Renaming := do
  let pairs ← j.listOf? fun p => do
    let (old, new) ← p.pair?
    return (← UnitId.ofJson? old, ← UnitId.ofJson? new)
  return .ofList pairs

def renameQubits (ρ : Renaming) : Pass σ :=
  .standard "RenameQubitsPass"
    { post := (Postconditions.preserveAll.treating (.property .defaultRegister) .clear).treating
        .connectivity .clear }
    (Transform.renameUnits ρ) (.ofList [("qubit_map", renamingConfig ρ)])

def removeBlankWires : Pass σ :=
  .standard "RemoveBlankWires"
    { post := Postconditions.preserveAll.treating (.property .defaultRegister) .clear }
    Transform.removeBlankWires .empty

end Pass

end Wireloom
