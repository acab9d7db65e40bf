import Wireloom.Circuit.Copy
import Wireloom.Circuit.Units

/-!
# `Circuit.append` — circuits one after the other and side by side

Appending ties units of one name together. An output meets an input as a plain wire; a qubit that the second
circuit creates is reset; a discarded qubit can only be created anew. Units of one circuit alone pass through.
Global phases add.
-/

namespace Wireloom.Circuit

/-- Whether a unit of `guest` can follow on `host`. -/
def checkAppend (host guest : Circuit) (u : UnitId) (ends : Ends) : Except CircuitError Unit :=
  match host.boundary.get? u with
  | some hostEnds => do
    let created := (← guest.graph.kind ends.input).isCreate
    let discarded := (← host.graph.kind hostEnds.output).isDiscard
    if discarded && !created then .error (.invalid .appendToDiscarded) else .ok ()
  | none => host.checkRegister u

/-- Ties the copied ends of a unit to the end of the host's wire, or adds the unit if it is new. -/
def tieUnit (u : UnitId) (ends : Ends) : Edit Unit := do
  match (← get).boundary.get? u with
  | none => modify fun host => { host with boundary := host.boundary.insert u ends }
  | some hostEnds =>
    let (_, last) ← ask (·.graph.linkIn ⟨hostEnds.output, 0⟩)
    let _ ← onGraph (Graph.addLink ⟨last.source, ⟨ends.input, 0⟩, last.kind⟩)
    onGraph (Graph.removeVertex hostEnds.output .cut .delete)
    if (← ask (·.graph.kind ends.input)).isCreate then
      onGraph (Graph.setKind ends.input (.op .reset))
    else onGraph (Graph.removeVertex ends.input .splice .delete)
    modify fun host => { host with boundary := host.boundary.insert u ⟨hostEnds.input, ends.output⟩ }

/-- Puts `guest` with its units renamed after the circuit. -/
def appendRenamed (guest : Circuit) (ρ : Renaming) : Edit Unit := do
  let (_, guest) ← ask fun _ => guest.rename ρ
  guest.boundary.entries.forM fun (u, ends) => ask fun host => host.checkAppend guest u ends
  let copies ← copyIn guest .merge
  guest.boundary.entries.forM fun (u, ends) => do
    tieUnit u (← ask fun _ => copies.getEnds ends)
  addPhase guest.phase

def append (guest : Circuit) : Edit Unit := appendRenamed guest .empty

def sequential (first second : Circuit) : Except CircuitError Circuit := first.edited (append second)

/-- Two circuits without a common unit side by side. -/
def parallel (first second : Circuit) : Except CircuitError Circuit :=
  first.edited do
    let _ ← mergeIn second .merge
    addPhase second.phase

end Wireloom.Circuit
