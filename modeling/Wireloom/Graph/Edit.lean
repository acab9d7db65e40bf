import Wireloom.Graph.Basic

/-!
# `Graph.Edit` — changing a graph

An edit changes a graph and may fail. What was changed before a failure stays changed, as `EStateM` has it.
`removeVertex` can splice the wires through the vertex together before it cuts the vertex off.
-/

namespace Wireloom

/-- What happens to the wires through a vertex that is removed. -/
inductive Rewiring where
  /-- Each linear wire is joined across the vertex. -/
  | splice
  /-- The wires are cut. -/
  | cut
  deriving DecidableEq

/-- What happens to a vertex that is removed. -/
inductive Deletion where
  /-- Its handle dies. -/
  | delete
  /-- It stays without links. -/
  | keep
  deriving DecidableEq

namespace Graph

abbrev Edit := EStateM CircuitError Graph

/-- An answer of the graph inside an edit. -/
def ask {α : Type} (question : Graph → Except CircuitError α) : Edit α := do
  match question (← get) with
  | .ok a => return a
  | .error e => throw e

/-! ## Single changes -/

def withVertex (g : Graph) (kind : NodeKind) (opgroup : Option String) : Graph :=
  { g with vertices := g.vertices.insert ⟨kind, opgroup, g.nextSequence⟩,
           nextSequence := g.nextSequence + 1 }

def withLink (g : Graph) (l : Link) : Graph := { g with edges := g.edges.insert l }

def withoutEdge (g : Graph) (e : Edge) : Graph := { g with edges := g.edges.release e }

def withoutVertex (g : Graph) (v : Vertex) : Graph := { g with vertices := g.vertices.release v }

def addVertex (kind : NodeKind) (opgroup : Option String) : Edit Vertex :=
  modifyGet fun g => (g.vertices.nextHandle, g.withVertex kind opgroup)

def addLink (l : Link) : Edit Edge := do
  let _ ← ask (·.node l.source.vertex)
  let _ ← ask (·.node l.target.vertex)
  modifyGet fun g => (g.edges.nextHandle, g.withLink l)

/-- The two ends of a new wire, and the graph with the ends and the link between them. -/
def withWire (g : Graph) (first last : NodeKind) (kind : WireKind) : (Vertex × Vertex) × Graph :=
  let input := g.vertices.nextHandle
  let g := g.withVertex first none
  let output := g.vertices.nextHandle
  let g := g.withVertex last none
  ((input, output), g.withLink ⟨⟨input, 0⟩, ⟨output, 0⟩, kind⟩)

def addWire (first last : NodeKind) (kind : WireKind) : Edit (Vertex × Vertex) :=
  modifyGet fun g => g.withWire first last kind

/-- Takes an edge out and tells what it connected. -/
def removeEdge (e : Edge) : Edit Link := do
  let l ← ask (·.link e)
  modify (·.withoutEdge e)
  return l

/-- Puts something else at a vertex and keeps its links. -/
def setKind (v : Vertex) (kind : NodeKind) : Edit Unit := do
  let _ ← ask (·.node v)
  modify fun g => { g with vertices := g.vertices.update v fun n => { n with kind } }

def setOpgroup (v : Vertex) (opgroup : Option String) : Edit Unit := do
  let _ ← ask (·.node v)
  modify fun g => { g with vertices := g.vertices.update v fun n => { n with opgroup } }

/-! ## Removing a vertex -/

/-- Takes out every link at a vertex: those that come in, latest first, then those that go out. -/
def isolate (v : Vertex) : Edit Unit := do
  let _ ← ask (·.node v)
  modify fun g => (g.incoming v ++ g.outgoing v).foldl (fun g p => g.withoutEdge p.1) g

/-- Joins the wire that comes in over `l` to where it goes on, and moves the reads of a classical wire to
the pin that it comes from. -/
def spliceLink (l : Link) : Edit Unit := do
  if l.kind.isLinear then
    let (_, next) ← ask (·.linkOut l.target)
    let _ ← addLink ⟨l.source, next.target, l.kind⟩
    if l.kind = .classical then
      ((← get).reads l.target).forM fun p => discard (addLink ⟨l.source, p.2.target, .boolean⟩)

/-- Joins every linear wire through a vertex, in the order of its pins. -/
def splice (v : Vertex) : Edit Unit := do
  ((← get).inLinks v).forM fun p => spliceLink p.2

def removeVertex (v : Vertex) (rewiring : Rewiring) (deletion : Deletion) : Edit Unit := do
  let _ ← ask (·.node v)
  if rewiring = .splice then splice v
  isolate v
  if deletion = .delete then modify (·.withoutVertex v)

end Graph

end Wireloom
