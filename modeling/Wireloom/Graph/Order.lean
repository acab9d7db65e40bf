import Wireloom.Graph.Basic

/-!
# `Graph.walk` — orders of a graph

A bit must be read before it is written again. The pairs of a reader and the next writer are the hazards of
a graph; they are no links, so every ordering adds them.

`Graph.walk` lists vertices so that each comes after all that lie before it, the earliest made first where
there is a choice. It stops short exactly when some of the vertices that are left wait for each other.
-/

namespace Wireloom.Graph

/-- The pairs of a reader of a bit and the vertex that writes the bit next, by the slot of the read. -/
def hazards (g : Graph) : List (Vertex × Vertex) :=
  g.edgeList.filterMap fun (_, read) =>
    if read.kind = .boolean then
      match (g.outgoing read.source.vertex).find? fun p =>
          p.2.kind = .classical && p.2.source.index = read.source.index with
      | some (_, write) =>
        if write.target.vertex = read.target.vertex then none
        else some (read.target.vertex, write.target.vertex)
      | none => none
    else none

def linkPairs (g : Graph) : List (Vertex × Vertex) :=
  g.edges.entries.map fun p => (p.2.source.vertex, p.2.target.vertex)

/-- Whether nothing that is left lies before `v`. -/
def isReady (before : List (Vertex × Vertex)) (left : List Vertex) (v : Vertex) : Bool :=
  before.all fun p => p.2 ≠ v || !left.contains p.1

/-- Takes the first vertex that is ready from `left`, again and again, at most `n` times. -/
def walkFor (before : List (Vertex × Vertex)) : Nat → List Vertex → List Vertex
  | 0, _ => []
  | n + 1, left =>
    match left.find? (isReady before left) with
    | some v => v :: walkFor before n (left.erase v)
    | none => []

/-- The vertices in the order in which they were made, each held back until all that `before` puts in front
of it are listed. -/
def walkBy (g : Graph) (before : List (Vertex × Vertex)) : List Vertex :=
  let all := g.bySequence.map Prod.fst
  walkFor before all.length all

def walk (g : Graph) : List Vertex := g.walkBy (g.linkPairs ++ g.hazards)

/-- Every vertex after its predecessors, readers of a bit before its next writer, ties by sequence. -/
def topologicalOrder (g : Graph) : Except CircuitError (List Vertex) :=
  let order := g.walk
  if order.length = g.vertices.size then .ok order else .error (.invalid .cyclic)

/-- Whether no path of links returns to where it started. -/
def isAcyclic (g : Graph) : Bool := (g.walkBy g.linkPairs).length = g.vertices.size

/-! ## Reachability -/

/-- `seen` with all that lies within `n` links of it. -/
def growFor (g : Graph) : Nat → List Vertex → List Vertex
  | 0, seen => seen
  | n + 1, seen =>
    match ((seen.flatMap g.successors).filter fun v => !seen.contains v).eraseDups with
    | [] => seen
    | new => growFor g n (seen ++ new)

/-- The vertices that can be reached from some of `start` along links. -/
def reachable (g : Graph) (start : List Vertex) : List Vertex := growFor g g.vertices.size start.eraseDups

end Wireloom.Graph
