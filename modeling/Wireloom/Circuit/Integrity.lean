import Wireloom.Circuit.Basic

/-!
# `Circuit.verify` — the structural rules of a circuit

The graph is acyclic; every unit has ends of the right kind, the input with nothing in front of it and the
output with nothing after it; every operation has a link of the right kind into each pin, and out of each
linear one; there are no boundary vertices but those of the units. The first rule that is broken is told.
-/

namespace Wireloom.Circuit

/-- Whether a vertex of this kind can start the wire of a unit. -/
def startsUnit (u : UnitId) : NodeKind → Bool
  | .input kind => kind = u.kind.wire
  | .create => u.isQubit
  | _ => false

/-- Whether a vertex of this kind can end the wire of a unit. -/
def endsUnit (u : UnitId) : NodeKind → Bool
  | .output kind => kind = u.kind.wire
  | .discard => u.isQubit
  | _ => false

def verifyUnit (c : Circuit) (u : UnitId) (ends : Ends) : Except CircuitError Unit := do
  let first ← c.graph.kind ends.input
  let last ← c.graph.kind ends.output
  if !(startsUnit u first && endsUnit u last) then .error (.invalid (.boundaryKind u))
  else if !(c.graph.incoming ends.input).isEmpty || (c.graph.linkOut? ⟨ends.input, 0⟩).isNone then
    .error (.invalid (.inputWiring u))
  else if (c.graph.incoming ends.output).length ≠ 1 || !(c.graph.outgoing ends.output).isEmpty then
    .error (.invalid (.outputWiring u))
  else .ok ()

def verifyPin (c : Circuit) (op : Op) (pin : Pin) (expected : WireKind) : Except CircuitError Unit := do
  let (_, before) ← c.graph.linkIn pin
  if before.kind ≠ expected then
    .error (.invalid (.inputKind op.label pin.index expected before.kind))
  else if expected.isLinear then do
    let (_, after) ← c.graph.linkOut pin
    if after.kind ≠ expected then .error (.invalid (.outputKind op.label pin.index after.kind))
    else .ok ()
  else .ok ()

def verifyVertex (c : Circuit) (v : Vertex) (n : Node) : Except CircuitError Unit :=
  match n.kind with
  | .op op =>
    let count := (c.graph.incoming v).length
    if count ≠ op.signature.length then
      .error (.invalid (.inputCount op.label count op.signature.length))
    else op.signature.zipIdx.forM fun (expected, i) => c.verifyPin op ⟨v, i⟩ expected
  | _ => .ok ()

/-- The structural rules of a circuit. -/
def verify (c : Circuit) : Except CircuitError Unit :=
  if !c.graph.isAcyclic then .error (.invalid .cyclicWiring)
  else do
    c.boundary.entries.forM fun (u, ends) => c.verifyUnit u ends
    c.graph.vertexList.forM fun (v, n) => c.verifyVertex v n
    if c.graph.vertices.entries.countP (fun p => p.2.kind.isBoundary) ≠ 2 * c.boundary.size then
      .error (.invalid .boundaryCount)
    else .ok ()

end Wireloom.Circuit
