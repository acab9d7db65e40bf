import Wireloom.Circuit.Basic

/-!
# `Circuit.copyIn` — a copy of one circuit inside another

All vertices of a circuit are copied in the order in which they were made, so that the copy's commands keep
their relative order, then its links by slot. An `OpgroupPolicy` says what becomes of opgroup names;
whatever is refused is refused before anything is changed.
-/

namespace Wireloom

/-- What happens to the opgroup names of a circuit that is copied into another. -/
inductive OpgroupPolicy where
  /-- Names are kept, and must be new to the host. -/
  | preserve
  /-- There must be no names. -/
  | disallow
  /-- Names are kept, and those that the host has too must have the same signature. -/
  | merge
  /-- Names are dropped. -/
  | remove
  deriving DecidableEq

namespace OpgroupPolicy

def ofName? (name : String) : Option OpgroupPolicy :=
  [("Preserve", preserve), ("Disallow", disallow), ("Merge", merge), ("Remove", remove)].lookup name

def keepsNames : OpgroupPolicy → Bool
  | preserve => true
  | merge => true
  | _ => false

/-- What a policy asks of the names of the host and of the circuit that comes in. -/
def check (host guest : SortedMap String Signature) : OpgroupPolicy → Except CircuitError Unit
  | preserve => if guest.keys.any host.contains then .error (.invalid .opgroupCollision) else .ok ()
  | disallow => if guest.isEmpty then .ok () else .error (.invalid .opgroupPresent)
  | merge =>
    match guest.entries.find? fun p => (host.get? p.1).any fun s => s ≠ p.2 with
    | some (opgroup, _) => .error (.invalid (.opgroupDisagreement opgroup))
    | none => .ok ()
  | remove => .ok ()

end OpgroupPolicy

abbrev Copies := List (Vertex × Vertex)

def Copies.get (copies : Copies) (v : Vertex) : Except CircuitError Vertex :=
  match copies.lookup v with
  | some w => .ok w
  | none => .error .missingVertex

def Copies.getEnds (copies : Copies) (ends : Ends) : Except CircuitError Ends := do
  return ⟨← copies.get ends.input, ← copies.get ends.output⟩

namespace Graph

def copyVertices (keepNames : Bool) : List (Vertex × Node) → Edit Copies
  | [] => return []
  | (v, n) :: rest => do
    let w ← addVertex n.kind (if keepNames then n.opgroup else none)
    return (v, w) :: (← copyVertices keepNames rest)

def copyLink (copies : Copies) (l : Link) : Edit Unit := do
  let source ← ask fun _ => copies.get l.source.vertex
  let target ← ask fun _ => copies.get l.target.vertex
  discard (addLink ⟨⟨source, l.source.index⟩, ⟨target, l.target.index⟩, l.kind⟩)

/-- Adds a copy of all vertices and links of another graph. -/
def copyIn (guest : Graph) (keepNames : Bool) : Edit Copies := do
  let copies ← copyVertices keepNames guest.bySequence
  guest.edgeList.forM fun p => copyLink copies p.2
  return copies

end Graph

namespace Circuit

/-- Two circuits can stand side by side if they share no unit and no register of different kinds. -/
def checkMerge (host guest : Circuit) : Except CircuitError Unit :=
  guest.units.forM fun u =>
    if host.hasUnit u then .error (.unsupported (.mergeSharedUnit u))
    else if host.units.any fun v => v.register = u.register && v.kind ≠ u.kind then
      .error (.unsupported (.mergeRegisterKind u.register))
    else .ok ()

/-- Copies the graph of `guest` into the circuit. Its boundary vertices stay outside the boundary. -/
def copyIn (guest : Circuit) (policy : OpgroupPolicy) : Edit Copies := do
  ask fun host => policy.check host.opgroups guest.opgroups
  let copies ← onGraph (Graph.copyIn guest.graph policy.keepsNames)
  if policy.keepsNames then
    modify fun host => { host with opgroups := host.opgroups.unionLeft guest.opgroups }
  return copies

/-- Copies `guest` into the circuit and joins its units to the boundary. -/
def mergeIn (guest : Circuit) (policy : OpgroupPolicy) : Edit Copies := do
  ask fun host => policy.check host.opgroups guest.opgroups
  ask fun host => host.checkMerge guest
  let copies ← copyIn guest policy
  guest.boundary.entries.forM fun (u, ends) => do
    let ends ← ask fun _ => copies.getEnds ends
    modify fun host => { host with boundary := host.boundary.insert u ends }
  return copies

end Circuit

end Wireloom
