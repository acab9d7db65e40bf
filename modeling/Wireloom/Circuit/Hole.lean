import Wireloom.Circuit.Basic

/-!
# `Hole` — regions of a circuit and the links that cross their edge

A hole describes a region by the links that cross its edge. A slot is a link that enters, paired with the
link through which the same wire leaves; a slot that only reads a bit has no way out. Reads that leave the
region fan out and are listed apart.

A region is convex if no path leaves it and comes back: then the rest of the circuit splits into what comes
before and what comes after, and something else can be put in its place.
-/

namespace Wireloom

/-- A region of a circuit, by the edges that cross its boundary. -/
structure Hole where
  /-- The edges that enter, one for each slot. -/
  entries : List Edge := []
  /-- The edges that leave, none for a slot that only reads. -/
  exits : List (Option Edge) := []
  /-- The reads inside whose readers are outside. -/
  reads : List Edge := []
  interior : SortedSet Vertex := .empty

/-- What crosses into a region for one unit. -/
structure Crossing where
  /-- The edges through which the wire enters and leaves. -/
  wire : Option (Edge × Edge) := none
  /-- The reads from outside. -/
  reads : List Edge := []

namespace Circuit

/-! ## The unit of an edge -/

/-- Follows a wire back to its input, over at most `n` links. -/
def traceUnit (c : Circuit) : Nat → Link → Except CircuitError UnitId
  | 0, _ => .error (.invalid .cyclic)
  | n + 1, l => do
    if (← c.graph.kind l.source.vertex).isStart then
      match c.unitStartingAt? l.source.vertex with
      | some u => .ok u
      | none => .error (.invalid .inputUnregistered)
    else
      let (_, before) ← c.graph.linkIn l.source
      traceUnit c n before

def edgeUnit (c : Circuit) (e : Edge) : Except CircuitError UnitId := do
  c.traceUnit c.graph.edges.size (← c.graph.link e)

/-! ## Convexity -/

/-- The vertices outside a region that a link from inside leads to. -/
def outsideSuccessors (c : Circuit) (region : SortedSet Vertex) : List Vertex :=
  (region.toList.flatMap c.graph.successors).filter fun v => !region.contains v

/-- Whether no path leaves the region and comes back. -/
def isConvex (c : Circuit) (region : SortedSet Vertex) : Except CircuitError Bool := do
  region.toList.forM fun v => discard (c.graph.node v)
  return (c.graph.reachable (c.outsideSuccessors region)).all fun v => !region.contains v

def checkConvex (c : Circuit) (region : SortedSet Vertex) : Except CircuitError Unit := do
  if ← c.isConvex region then .ok () else .error (.invalid .regionReentered)

/-! ## The hole of a region -/

def checkInterior (c : Circuit) (v : Vertex) : Except CircuitError Unit := do
  if (← c.graph.kind v).isBoundary then .error (.invalid .regionHasBoundary) else .ok ()

/-- Follows a wire on from a pin until it leaves the region, over at most `n` links. -/
def followOut (c : Circuit) (region : SortedSet Vertex) : Nat → Pin → Except CircuitError Edge
  | 0, _ => .error (.invalid .cyclic)
  | n + 1, p => do
    let (e, l) ← c.graph.linkOut p
    if region.contains l.target.vertex then followOut c region n l.target else .ok e

/-- Adds a link that enters the region to the crossings of its unit. -/
def addCrossing (c : Circuit) (region : SortedSet Vertex) (crossings : SortedMap UnitId Crossing)
    (p : Edge × Link) : Except CircuitError (SortedMap UnitId Crossing) := do
  let (e, l) := p
  if region.contains l.source.vertex then .ok crossings
  else
    let u ← c.edgeUnit e
    let crossing := (crossings.get? u).getD {}
    if !l.kind.isLinear then
      .ok (crossings.insert u { crossing with reads := crossing.reads ++ [e] })
    else if crossing.wire.isSome then .error (.invalid (.regionEnteredTwice u))
    else
      let exit ← c.followOut region c.graph.edges.size l.target
      .ok (crossings.insert u { crossing with wire := some (e, exit) })

/-- The reads of a vertex whose readers are outside the region. -/
def readsLeaving (c : Circuit) (region : SortedSet Vertex) (v : Vertex) : List Edge :=
  ((c.graph.outLinks v).filter fun p =>
    p.2.kind = .boolean && !region.contains p.2.target.vertex).map Prod.fst

/-- The slot of a unit: where its wire enters, or else its first read. All reads have to come from the pin
that the slot comes from. -/
def crossingSlot (c : Circuit) (u : UnitId) (crossing : Crossing) :
    Except CircuitError (Option (Edge × Option Edge)) := do
  let entry := match crossing.wire with
    | some (entry, _) => some entry
    | none => crossing.reads.head?
  match entry with
  | none => .ok none
  | some entry =>
    let source := (← c.graph.link entry).source
    crossing.reads.forM fun read => do
      if (← c.graph.link read).source ≠ source then .error (.invalid (.regionReadTwice u))
    return some (entry, crossing.wire.map Prod.snd)

/-- The hole of a region, its slots by unit in canonical order. -/
def holeOf (c : Circuit) (region : SortedSet Vertex) : Except CircuitError Hole := do
  region.toList.forM c.checkInterior
  c.checkConvex region
  let links := region.toList.flatMap c.graph.inLinks
  let crossings ← links.foldlM (c.addCrossing region) .empty
  let slots ← crossings.entries.filterMapM fun (u, crossing) => c.crossingSlot u crossing
  return {
    entries := slots.map Prod.fst
    exits := slots.map Prod.snd
    reads := region.toList.flatMap (c.readsLeaving region)
    interior := region }

/-- The place of a wire kind among the slots of a vertex: as units of that kind are ordered. -/
def slotRank : WireKind → Nat
  | .quantum => 0
  | .classical => 1
  | .boolean => 1
  | .wasm => 2
  | .rng => 3

/-- The hole of a single vertex, its slots by kind and pin. -/
def holeAt (c : Circuit) (v : Vertex) : Except CircuitError Hole := do
  c.checkInterior v
  let links := sortedBy (fun p => [slotRank p.2.kind, p.2.target.index]) (c.graph.inLinks v)
  let exits ← links.mapM fun (_, l) => do
    if l.kind.isLinear then return some (← c.graph.linkOut l.target).1 else return none
  return {
    entries := links.map Prod.fst
    exits
    reads := ((c.graph.outLinks v).filter fun p => p.2.kind = .boolean).map Prod.fst
    interior := .ofList [v] }

end Circuit

end Wireloom
