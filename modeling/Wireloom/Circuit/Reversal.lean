import Wireloom.Circuit.Copy

/-!
# `Circuit.dagger` — circuits run backwards

Inputs and outputs change places, links are turned round and every operation is replaced by its inverse or
its transpose. Vertices are made anew in the opposite order, so that ties in the order of commands are turned
round too. Circuits that create or discard qubits, or read bits, cannot be run backwards.
-/

namespace Wireloom.Circuit

/-- What stands at a vertex of the reversed circuit. -/
def reversedKind (reverseOp : Op → Except CircuitError Op) : NodeKind → Except CircuitError NodeKind
  | .input kind => .ok (.output kind)
  | .output kind => .ok (.input kind)
  | .op op => (reverseOp op).map .op
  | .create => .error (.unsupported .reverseCreated)
  | .discard => .error (.unsupported .reverseCreated)

def checkReversible (c : Circuit) (u : UnitId) : Except CircuitError Unit := do
  if ← c.isCreated u then .error (.unsupported .reverseCreated)
  else if ← c.isDiscarded u then .error (.unsupported .reverseCreated)
  else .ok ()

def reverseVertices (reverseOp : Op → Except CircuitError Op) :
    List (Vertex × Node) → Graph.Edit Copies
  | [] => return []
  | (v, n) :: rest => do
    let kind ← Graph.ask fun _ => reversedKind reverseOp n.kind
    let w ← Graph.addVertex kind n.opgroup
    return (v, w) :: (← reverseVertices reverseOp rest)

def reverseLink (copies : Copies) (l : Link) : Graph.Edit Unit := do
  if l.kind = .boolean then throw (.unsupported .reverseReads)
  let source ← Graph.ask fun _ => copies.get l.target.vertex
  let target ← Graph.ask fun _ => copies.get l.source.vertex
  discard (Graph.addLink ⟨⟨source, l.target.index⟩, ⟨target, l.source.index⟩, l.kind⟩)

/-- The circuit run backwards, with `reverseOp` in the place of every operation. -/
def reversed (c : Circuit) (reverseOp : Op → Except CircuitError Op) (phase : Angle) :
    Except CircuitError Circuit := do
  c.units.forM c.checkReversible
  Circuit.edited { name := c.name, opgroups := c.opgroups, phase } do
    let copies ← onGraph (reverseVertices reverseOp c.graph.bySequence.reverse)
    onGraph (c.graph.edgeList.forM fun p => reverseLink copies p.2)
    c.boundary.entries.forM fun (u, ends) => do
      let ends ← ask fun _ => copies.getEnds ⟨ends.output, ends.input⟩
      modify fun c => { c with boundary := c.boundary.insert u ends }

def dagger (c : Circuit) : Except CircuitError Circuit := c.reversed Op.dagger (-c.phase)

def transpose (c : Circuit) : Except CircuitError Circuit := c.reversed Op.transpose c.phase

end Wireloom.Circuit
