import Wireloom.Graph.Store
import Wireloom.Op.Basic

/-!
# `Graph` — vertices, pins and links

A circuit graph holds boundary markers and operations. Vertices are joined by links that run from a pin of
one vertex to a pin of another and carry one kind of wire.

* At a linear pin (every kind but Boolean) one link comes in and one goes out.
* At a Boolean pin one link comes in, from the pin where the bit was last written. None goes out.
* From a classical pin any number of Boolean links fan out beside the one classical link.

Where several links fit a description, the one added latest is taken.
-/

namespace Wireloom

/-- What a vertex holds: the start or end of a wire, or an operation. -/
inductive NodeKind where
  | input (kind : WireKind)
  | output (kind : WireKind)
  /-- The start of a qubit that is prepared in its zero state. -/
  | create
  /-- The end of a qubit whose state is dropped. -/
  | discard
  | op (o : Op)

namespace NodeKind

def op? : NodeKind → Option Op
  | op o => some o
  | _ => none

def isStart : NodeKind → Bool
  | input _ => true
  | create => true
  | _ => false

def isEnd : NodeKind → Bool
  | output _ => true
  | discard => true
  | _ => false

def isBoundary : NodeKind → Bool
  | op _ => false
  | _ => true

def isCreate : NodeKind → Bool
  | create => true
  | _ => false

def isDiscard : NodeKind → Bool
  | discard => true
  | _ => false

def signature : NodeKind → Signature
  | input kind => [kind]
  | output kind => [kind]
  | create => [.quantum]
  | discard => [.quantum]
  | op o => o.signature

def label : NodeKind → String
  | input kind => "input(" ++ kind.text ++ ")"
  | output kind => "output(" ++ kind.text ++ ")"
  | create => "create"
  | discard => "discard"
  | op o => o.label

end NodeKind

/-- A vertex's content. `sequence` counts the vertices made before it, and `opgroup` is a name under which
vertices can be replaced together. -/
structure Node where
  kind : NodeKind
  opgroup : Option String
  sequence : Nat

abbrev Vertex := Handle Node

def Vertex.text (v : Vertex) : String := s!"v{v.slot}#{v.generation}"

/-- A place on a vertex where links attach. -/
structure Pin where
  vertex : Vertex
  index : Nat
  deriving DecidableEq

/-- A connection between two pins. -/
structure Link where
  source : Pin
  target : Pin
  kind : WireKind
  deriving DecidableEq

abbrev Edge := Handle Link

structure Graph where
  vertices : SlotStore Node := {}
  edges : SlotStore Link := {}
  nextSequence : Nat := 0

namespace Graph

/-! ## Vertices -/

def node (g : Graph) (v : Vertex) : Except CircuitError Node :=
  match g.vertices.get? v with
  | some n => .ok n
  | none => .error .missingVertex

def sequence (g : Graph) (v : Vertex) : Except CircuitError Nat := (g.node v).map Node.sequence

def kind (g : Graph) (v : Vertex) : Except CircuitError NodeKind := (g.node v).map Node.kind

def vertexList (g : Graph) : List (Vertex × Node) := g.vertices.bySlot

/-- The vertices in the order in which they were made. -/
def bySequence (g : Graph) : List (Vertex × Node) :=
  sortedBy (fun p => p.2.sequence) g.vertices.entries

/-! ## Links -/

def link (g : Graph) (e : Edge) : Except CircuitError Link :=
  match g.edges.get? e with
  | some l => .ok l
  | none => .error .missingEdge

def edgeList (g : Graph) : List (Edge × Link) := g.edges.bySlot

/-- The links into a vertex, latest first. -/
def incoming (g : Graph) (v : Vertex) : List (Edge × Link) :=
  g.edges.entries.filter fun p => p.2.target.vertex = v

/-- The links out of a vertex, latest first. -/
def outgoing (g : Graph) (v : Vertex) : List (Edge × Link) :=
  g.edges.entries.filter fun p => p.2.source.vertex = v

/-- The links into a vertex by pin, then by slot. -/
def inLinks (g : Graph) (v : Vertex) : List (Edge × Link) :=
  sortedBy (fun p => [p.2.target.index, p.1.slot]) (g.incoming v)

/-- The links out of a vertex by pin, at one pin the linear ones first, then by slot. -/
def outLinks (g : Graph) (v : Vertex) : List (Edge × Link) :=
  sortedBy (fun p => [p.2.source.index, if p.2.kind = .boolean then 1 else 0, p.1.slot]) (g.outgoing v)

/-- The Boolean links out of a pin. -/
def reads (g : Graph) (p : Pin) : List (Edge × Link) :=
  (g.outLinks p.vertex).filter fun q => q.2.source.index = p.index && q.2.kind = .boolean

/-- The link into a pin, among those at hand. -/
def linkIn? (g : Graph) (p : Pin) : Option (Edge × Link) :=
  (g.incoming p.vertex).find? fun q => q.2.target.index = p.index

/-- The linear link out of a pin, among those at hand. -/
def linkOut? (g : Graph) (p : Pin) : Option (Edge × Link) :=
  (g.outgoing p.vertex).find? fun q => q.2.source.index = p.index && q.2.kind.isLinear

def linkIn (g : Graph) (p : Pin) : Except CircuitError (Edge × Link) := do
  let _ ← g.node p.vertex
  match g.linkIn? p with
  | some found => .ok found
  | none => .error .missingEdge

/-- The linear link out of a pin. -/
def linkOut (g : Graph) (p : Pin) : Except CircuitError (Edge × Link) := do
  let _ ← g.node p.vertex
  match g.linkOut? p with
  | some found => .ok found
  | none => .error .missingEdge

def linksInto (g : Graph) (v : Vertex) : Except CircuitError (List (Edge × Link)) :=
  (g.node v).map fun _ => g.inLinks v

def linksOutOf (g : Graph) (v : Vertex) : Except CircuitError (List (Edge × Link)) :=
  (g.node v).map fun _ => g.outLinks v

def linksIntoOfKind (g : Graph) (v : Vertex) (kind : WireKind) :
    Except CircuitError (List (Edge × Link)) :=
  (g.linksInto v).map fun links => links.filter fun p => p.2.kind = kind

def linksOutOfOfKind (g : Graph) (v : Vertex) (kind : WireKind) :
    Except CircuitError (List (Edge × Link)) :=
  (g.linksOutOf v).map fun links => links.filter fun p => p.2.kind = kind

def readsOf (g : Graph) (p : Pin) : Except CircuitError (List (Edge × Link)) :=
  (g.node p.vertex).map fun _ => g.reads p

def successors (g : Graph) (v : Vertex) : List Vertex :=
  (g.outgoing v).map fun p => p.2.target.vertex

end Graph

end Wireloom
