import Wireloom.Circuit.Basic

/-!
# `Circuit.rename` — renaming and removing units

Renaming is simultaneous and all or nothing: it fails if a unit would change its kind or if two units would
end up with one name. Flattening renames every unit into the default register of its kind. A blank wire runs
straight from its input to its output and is never read.
-/

namespace Wireloom

abbrev Renaming := SortedMap UnitId UnitId

namespace Renaming

/-- The new name of a unit; a unit that is not renamed keeps its own. -/
def apply (ρ : Renaming) (u : UnitId) : UnitId := (ρ.get? u).getD u

/-- A renaming must not change the kind of a unit. -/
def checkKinds (ρ : Renaming) : Except CircuitError Unit :=
  match ρ.entries.find? fun p => p.1.kind ≠ p.2.kind with
  | some (old, new) => .error (.invalid (.renameKind old new))
  | none => .ok ()

/-- The entries under their new names, added to `done`. Two of one name are refused. -/
def collect {α : Type} (ρ : Renaming) :
    List (UnitId × α) → SortedMap UnitId α → Except CircuitError (SortedMap UnitId α)
  | [], done => .ok done
  | (u, x) :: rest, done =>
    if done.contains (ρ.apply u) then .error (.invalid (.renameCollision (ρ.apply u)))
    else collect ρ rest (done.insert (ρ.apply u) x)

/-- Every unit to the default register of its kind, counted from zero in the given order. -/
def flattening (units : List UnitId) : Renaming :=
  let place (u : UnitId) (i : Nat) : UnitId :=
    .ofIndex u.kind ((units.take i).countP fun v => v.kind = u.kind)
  .ofList (units.zipIdx.map fun (u, i) => (u, place u i))

end Renaming

namespace Circuit

/-- The circuit with its units renamed, and whether any name changed. -/
def rename (ρ : Renaming) (c : Circuit) : Except CircuitError (Bool × Circuit) := do
  ρ.checkKinds
  let boundary ← ρ.collect c.boundary.entries .empty
  return (c.units.any fun u => ρ.apply u ≠ u, { c with boundary })

/-- Renames the units. Names of units that the circuit does not have are passed over. -/
def renameUnits (ρ : Renaming) : Edit Bool := revise (rename ρ)

/-- Moves every unit into the default register of its kind and tells how. -/
def flattenRegisters : Edit Renaming := do
  let ρ := Renaming.flattening (← get).units
  let _ ← renameUnits ρ
  return ρ

/-- Whether the only link out of the input of a wire leads to its output. -/
def isBlank (c : Circuit) (ends : Ends) : Except CircuitError Bool := do
  match ← c.graph.linksOutOf ends.input with
  | [(_, l)] => .ok (l.target.vertex = ends.output)
  | _ => .ok false

def blankUnits (c : Circuit) : Except CircuitError (List (UnitId × Ends)) :=
  c.boundary.entries.filterM fun p => c.isBlank p.2

def dropUnit (u : UnitId) (ends : Ends) : Edit Unit := do
  modify fun c => { c with boundary := c.boundary.erase u }
  onGraph (Graph.removeVertex ends.input .cut .delete)
  onGraph (Graph.removeVertex ends.output .cut .delete)

/-- Takes out all blank wires and tells which. -/
def removeBlankWires : Edit (List UnitId) := do
  let blank ← ask (·.blankUnits)
  blank.forM fun (u, ends) => dropUnit u ends
  return blank.map Prod.fst

end Circuit

end Wireloom
