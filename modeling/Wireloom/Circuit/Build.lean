import Wireloom.Circuit.Basic

/-!
# `Circuit.addOp` — building circuits

Units are added as blank wires from an input to an output. `addOp` puts an operation at the end of the wires
that it acts on: a linear pin goes between the last vertex of its wire and the wire's end, a Boolean pin
reads the pin that last wrote the bit.
-/

namespace Wireloom.Circuit

/-! ## Units -/

/-- The circuit with a blank wire for `u`. -/
def insertUnit (c : Circuit) (u : UnitId) : Circuit :=
  let wire := u.kind.wire
  let ((input, output), graph) := c.graph.withWire (.input wire) (.output wire) wire
  { c with graph, boundary := c.boundary.insert u ⟨input, output⟩ }

/-- The circuit with blank wires for so many qubits and bits of the default registers. -/
def ofUnits (qubits bits : Nat) : Circuit :=
  ((List.range qubits).map UnitId.qubit ++ (List.range bits).map UnitId.bit).foldl insertUnit {}

def addUnit (u : UnitId) : Edit Unit := do
  if (← get).hasUnit u then throw (.invalid (.unitExists u))
  ask (·.checkRegister u)
  modify (·.insertUnit u)

def checkKind (u : UnitId) (expected : UnitKind) : Except CircuitError Unit :=
  if u.kind = expected then .ok () else .error (.unitKind u expected)

def addQubit (u : UnitId) : Edit Unit := do
  ask fun _ => checkKind u .qubit
  addUnit u

def addBit (u : UnitId) : Edit Unit := do
  ask fun _ => checkKind u .bit
  addUnit u

/-- Lets a qubit start in its zero state. -/
def createQubit (u : UnitId) : Edit Unit := do
  ask fun _ => checkKind u .qubit
  let ends ← ask (·.ends u)
  onGraph (Graph.setKind ends.input .create)

/-- Drops the state of a qubit at its end. -/
def discardQubit (u : UnitId) : Edit Unit := do
  ask fun _ => checkKind u .qubit
  let ends ← ask (·.ends u)
  onGraph (Graph.setKind ends.output .discard)

/-! ## Operations -/

/-- Each argument has to be a unit of the circuit of the kind that its pin takes, and no two linear pins take
the same unit. `taken` are the units of the linear pins before. -/
def checkEach (c : Circuit) : List (UnitId × WireKind) → List UnitId → Except CircuitError Unit
  | [], _ => .ok ()
  | (u, k) :: rest, taken =>
    if !c.hasUnit u then .error (.unitNotFound u)
    else if u.kind ≠ k.unitKind then .error (.unitKind u k.unitKind)
    else if k.isLinear then
      if taken.contains u then .error (.duplicateUnit u) else checkEach c rest (u :: taken)
    else checkEach c rest taken

/-- The units that are both written and read, in canonical order. -/
def writtenAndRead (pins : List (UnitId × WireKind)) : List UnitId :=
  let reads := (pins.filter fun p => !p.2.isLinear).map Prod.fst
  sortedBy id (((pins.filter fun p => p.2.isLinear).map Prod.fst).filter reads.contains)

def checkArgs (c : Circuit) (op : Op) (args : List UnitId) : Except CircuitError Unit :=
  let signature := op.signature
  if signature.length ≠ args.length then
    .error (.argumentCount op.name signature.length args.length)
  else do
    checkEach c (args.zip signature) []
    match writtenAndRead (args.zip signature) with
    | u :: _ => .error (.duplicateUnit u)
    | [] => .ok ()

/-- Enters an operation in an opgroup: the first one sets the signature, the others have to have it. -/
def joinOpgroup (op : Op) : Option String → Edit Unit
  | none => return
  | some opgroup => do
    match (← get).opgroups.get? opgroup with
    | some signature =>
      if signature ≠ op.signature then throw (.invalid (.opgroupSignature op.name opgroup))
    | none => modify fun c => { c with opgroups := c.opgroups.insert opgroup op.signature }

/-- Connects a pin of a new vertex to the end of a unit's wire. -/
def wirePin (pin : Pin) (u : UnitId) (kind : WireKind) : Edit Unit := do
  let ends ← ask (·.ends u)
  let (last, link) ← ask (·.graph.linkIn ⟨ends.output, 0⟩)
  if kind.isLinear then
    let _ ← onGraph (Graph.removeEdge last)
    let _ ← onGraph (Graph.addLink ⟨link.source, pin, kind⟩)
    let _ ← onGraph (Graph.addLink ⟨pin, ⟨ends.output, 0⟩, kind⟩)
  else
    let _ ← onGraph (Graph.addLink ⟨link.source, pin, .boolean⟩)

/-- Adds an operation at the end of the wires of its arguments. -/
def addOp (op : Op) (args : List UnitId) (opgroup : Option String) : Edit Vertex := do
  ask (·.checkArgs op args)
  joinOpgroup op opgroup
  let v ← onGraph (Graph.addVertex (.op op) opgroup)
  (args.zip op.signature).zipIdx.forM fun ((u, kind), i) => wirePin ⟨v, i⟩ u kind
  return v

/-- Adds an operation outside any opgroup. -/
def apply (op : Op) (args : List UnitId) : Edit Unit := discard (addOp op args none)

/-- Removes an operation and joins its wires. -/
def removeOp (v : Vertex) : Edit Unit := do
  if (← ask (·.graph.kind v)).isBoundary then throw (.invalid .removesBoundary)
  onGraph (Graph.removeVertex v .splice .delete)

/-! ## Operations on default registers -/

def applyGate (g : Gate) (qubits : List Nat) : Edit Unit := apply (.gate g) (qubits.map UnitId.qubit)

def measure (qubit bit : Nat) : Edit Unit := apply .measure [.qubit qubit, .bit bit]

def reset (qubit : Nat) : Edit Unit := apply .reset [.qubit qubit]

def barrier (qubits : List Nat) : Edit Unit :=
  apply (.barrierOn qubits.length) (qubits.map UnitId.qubit)

end Wireloom.Circuit
