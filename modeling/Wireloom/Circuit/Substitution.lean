import Wireloom.Circuit.Copy
import Wireloom.Circuit.Hole

/-!
# `Circuit.substitute` — putting a circuit into a hole

The units of the replacement, in canonical order, fill the slots of the hole. What does not fit is refused
before anything is changed. Then the replacement is copied in and its ends are connected slot by slot; ends,
crossed edges and the old interior are removed afterwards.

* A wire that starts with a created qubit inside the replacement becomes a reset, unless the host creates
  the qubit right there.
* A discarded qubit at the end of a wire of the host discards it there.
* A slot that only reads hands its reads to the pin that the host reads from.
-/

namespace Wireloom.Circuit

/-! ## Checks -/

/-- The units of a replacement with the slots that they fill. -/
def slots (replacement : Circuit) (hole : Hole) : List ((UnitId × Ends) × Edge × Option Edge) :=
  replacement.boundary.entries.zip (hole.entries.zip hole.exits)

/-- A unit fits a slot that carries units of its kind and has a way out just if it is linear. Into a slot that
only reads goes a wire that is not written. -/
def checkSlot (host replacement : Circuit) (slot : (UnitId × Ends) × Edge × Option Edge) :
    Except CircuitError Unit := do
  let ((u, ends), entry, exit) := slot
  let kind := (← host.graph.link entry).kind
  if kind.unitKind ≠ u.kind || kind.isLinear ≠ exit.isSome then .error (.invalid .holeMismatch)
  else if kind = .boolean then do
    let (_, through) ← replacement.graph.linkOut ⟨ends.input, 0⟩
    if through.target.vertex ≠ ends.output then .error (.invalid (.holeReadOnly u)) else .ok ()
  else .ok ()

def checkHole (host replacement : Circuit) (hole : Hole) : Except CircuitError Unit :=
  if !replacement.isSimple then .error .simpleOnly
  else if hole.entries.length ≠ hole.exits.length ∨ replacement.boundary.size ≠ hole.entries.length then
    .error (.invalid .holeMismatch)
  else do
    host.checkConvex hole.interior
    (replacement.slots hole).forM (checkSlot host replacement)

/-! ## Connecting -/

/-- What is left to do after the slots are connected. -/
structure Leftovers where
  /-- Copied ends to splice out. -/
  spliced : List Vertex := []
  /-- Copied ends to cut out. -/
  dropped : List Vertex := []
  /-- Crossed edges to take out. -/
  crossed : SortedSet Edge := .empty
  /-- For each exit the copied output that now feeds it. -/
  writers : List (Edge × Vertex) := []

namespace Leftovers

/-- Notes that `output` now feeds `exit`; an earlier output of the same exit is forgotten. -/
def setWriter (rest : Leftovers) (exit : Edge) (output : Vertex) : Leftovers :=
  { rest with writers := rest.writers.filter (fun p => p.1 ≠ exit) ++ [(exit, output)] }

/-- The output that feeds the exit that leaves `pin`. -/
def writerAt? (rest : Leftovers) (g : Graph) (pin : Pin) : Option Vertex :=
  (rest.writers.find? fun p => (g.edges.get? p.1).any fun l => l.source = pin).map Prod.snd

end Leftovers

/-- Hands the reads of a copied input to the pin that the slot reads. -/
def connectReads (entry : Edge) (ends : Ends) (rest : Leftovers) : Edit Leftovers := do
  let before ← ask (·.graph.link entry)
  ((← get).graph.reads ⟨ends.input, 0⟩).forM fun p =>
    discard (onGraph (Graph.addLink ⟨before.source, p.2.target, .boolean⟩))
  return { rest with dropped := rest.dropped ++ [ends.input, ends.output] }

/-- Runs the wire of a slot through the copied ends. -/
def connectWire (entry exit : Edge) (ends : Ends) (rest : Leftovers) : Edit Leftovers := do
  let before ← ask (·.graph.link entry)
  let after ← ask (·.graph.link exit)
  let _ ← onGraph (Graph.addLink ⟨before.source, ⟨ends.input, 0⟩, before.kind⟩)
  let _ ← onGraph (Graph.addLink ⟨⟨ends.output, 0⟩, after.target, before.kind⟩)
  let crossed := (rest.crossed.add entry).add exit
  let created := (← ask (·.graph.kind ends.input)).isCreate
  let hostCreates := (← ask (·.graph.kind before.source.vertex)).isCreate
  let resets := created && !hostCreates
  if resets then onGraph (Graph.setKind ends.input (.op .reset))
  let discarded := (← ask (·.graph.kind ends.output)).isDiscard
  if discarded then
    match ← ask (·.graph.kind after.target.vertex) with
    | .output _ => onGraph (Graph.setKind after.target.vertex .discard)
    | _ => pure ()
  let spliced := if resets then [ends.output] else [ends.input, ends.output]
  return { rest with crossed, spliced := rest.spliced ++ spliced }.setWriter exit ends.output

def connectSlot (copies : Copies) (rest : Leftovers) (slot : (UnitId × Ends) × Edge × Option Edge) :
    Edit Leftovers := do
  let ((_, ends), entry, exit) := slot
  let ends ← ask fun _ => copies.getEnds ends
  match exit with
  | none => connectReads entry ends rest
  | some exit => connectWire entry exit ends rest

/-- Lets a read that leaves the hole read the copied output of the exit that it stood beside. -/
def connectRead (rest : Leftovers) (e : Edge) : Edit Leftovers := do
  let read ← ask (·.graph.link e)
  match rest.writerAt? (← get).graph read.source with
  | none => throw (.invalid .holeReadUnmatched)
  | some output =>
    let _ ← onGraph (Graph.addLink ⟨⟨output, 0⟩, read.target, .boolean⟩)
    return { rest with crossed := rest.crossed.add e }

/-- Removes what the connected slots leave behind, then the interior of the hole. -/
def clearHole (rest : Leftovers) (interior : SortedSet Vertex) (deletion : Deletion) : Edit Unit := do
  rest.crossed.toList.forM fun e => do
    if (← get).graph.edges.contains e then discard (onGraph (Graph.removeEdge e))
  rest.spliced.forM fun v => onGraph (Graph.removeVertex v .splice .delete)
  rest.dropped.forM fun v => onGraph (Graph.removeVertex v .cut .delete)
  interior.toList.forM fun v => onGraph (Graph.removeVertex v .cut deletion)

/-! ## Substitution -/

/-- Puts a simple circuit into a hole and adds its global phase. -/
def substitute (replacement : Circuit) (hole : Hole) (deletion : Deletion) (policy : OpgroupPolicy) :
    Edit Unit := do
  ask fun host => host.checkHole replacement hole
  let copies ← copyIn replacement policy
  let rest ← (replacement.slots hole).foldlM (connectSlot copies) {}
  let rest ← hole.reads.foldlM connectRead rest
  clearHole rest hole.interior deletion
  addPhase replacement.phase

/-- Puts a simple circuit in the place of an operation. -/
def substituteVertex (replacement : Circuit) (v : Vertex) (deletion : Deletion) (policy : OpgroupPolicy) :
    Edit Unit := do
  let hole ← ask (·.holeAt v)
  substitute replacement hole deletion policy

/-- Puts a simple circuit across a set of wires: each edge is split around one of its units. -/
def insertAt (replacement : Circuit) (cut : List Edge) (reads : List Edge) : Edit Unit :=
  substitute replacement { entries := cut, exits := cut.map some, reads } .delete .preserve

/-- Exchanges the operation at a vertex for one with the same signature. -/
def substituteOp (op : Op) (v : Vertex) : Edit Unit := do
  let current ← ask (·.opAt v)
  if current.signature ≠ op.signature then throw (.invalid (.signaturesDiffer current.name op.name))
  onGraph (Graph.setKind v (.op op))

/-- The vertices whose operation finds itself equal to `op`, in the order in which they were made. -/
def verticesOf (c : Circuit) (op : Op) : List Vertex :=
  (c.graph.bySequence.filter fun p => p.2.kind.op?.any fun o => o.agrees op).map Prod.fst

/-- Puts a simple circuit in the place of every operation equal to `op`; tells if there was one. -/
def substituteAll (replacement : Circuit) (op : Op) : Edit Bool := do
  let targets := (← get).verticesOf op
  targets.forM fun v => substituteVertex replacement v .delete .merge
  return !targets.isEmpty

/-- Whether the units of a circuit are of the kinds that a signature takes. -/
def fitsSignature (c : Circuit) (signature : Signature) : Bool :=
  sortedBy UnitKind.rank (signature.map WireKind.unitKind) = c.units.map UnitId.kind

/-- Puts a simple circuit in the place of every operation of an opgroup and forgets the group; tells if there
was one. -/
def substituteGroup (replacement : Circuit) (opgroup : String) : Edit Bool := do
  if !replacement.isSimple then throw .simpleOnly
  let c ← get
  if replacement.opgroups.keys.any c.opgroups.contains then throw (.invalid .replacementCollision)
  match c.opgroups.get? opgroup with
  | none => return false
  | some signature =>
    if !replacement.fitsSignature signature then throw (.invalid (.replacementSignature opgroup))
    let targets := c.opgroupVertices opgroup
    targets.forM fun v => substituteVertex replacement v .delete .merge
    modify fun c => { c with opgroups := c.opgroups.erase opgroup }
    return !targets.isEmpty

/-- Exchanges every operation of an opgroup for `op`; tells if there was one. -/
def substituteGroupOp (op : Op) (opgroup : String) : Edit Bool := do
  let c ← get
  match c.opgroups.get? opgroup with
  | none => return false
  | some signature =>
    if signature ≠ op.signature then throw (.invalid (.operationSignature op.name opgroup))
    let targets := c.opgroupVertices opgroup
    targets.forM fun v => onGraph (Graph.setKind v (.op op))
    return !targets.isEmpty

end Wireloom.Circuit
