import Wireloom.Json.Shape

/-!
# `Coupling` — which qubits of a device are next to each other

A device has qubits numbered from zero and unordered pairs of qubits that are coupled. The pairs are kept as
they were added, and beside them the neighbours that lookups use; a coupling read from JSON has no neighbours
until they are rebuilt.
-/

namespace Wireloom

/-- The coupled pairs of a device. -/
structure Coupling where
  /-- The pairs in the order in which they were added. -/
  edges : List (Nat × Nat) := []
  size : Nat
  /-- A qubit and a neighbour of it, for every lookup that succeeds. -/
  neighbours : List (Nat × Nat) := []

namespace Coupling

def ofSize (n : Nat) : Coupling := { size := n }

def isConnected (m : Coupling) (a b : Nat) : Bool := m.neighbours.contains (a, b)

def hasNode (m : Coupling) (q : Nat) : Bool := q < m.size

/-- The device with a pair added, and with as many qubits as that takes. A pair that is already connected is
passed over. -/
def addEdge (m : Coupling) (a b : Nat) : Coupling :=
  if m.isConnected a b then m
  else
    { edges := m.edges ++ [(a, b)]
      size := max m.size (max a b + 1)
      neighbours := m.neighbours ++ [(a, b), (b, a)] }

/-- The device with its neighbours read off its pairs. -/
def rebuild (m : Coupling) : Coupling :=
  { m with neighbours := m.edges.flatMap fun (a, b) => [(a, b), (b, a)] }

/-- Whether every qubit and every pair of `m` is one of `n`. -/
def isSubgraphOf (m n : Coupling) : Bool :=
  m.size ≤ n.size && m.edges.all fun (a, b) => n.isConnected a b

/-- The device with `m`'s qubits and the given pairs. -/
def addEdges (m : Coupling) (edges : List (Nat × Nat)) : Coupling :=
  edges.foldl (fun m (a, b) => m.addEdge a b) m

/-- The pairs of both devices over the smaller number of qubits. -/
def inter (m n : Coupling) : Coupling :=
  (ofSize (min m.size n.size)).addEdges (m.edges.filter fun (a, b) => n.isConnected a b)

def linear (n : Nat) : Coupling :=
  (ofSize n).addEdges ((List.range (n - 1)).map fun i => (i, i + 1))

def full (n : Nat) : Coupling :=
  (ofSize n).addEdges ((List.range n).flatMap fun i =>
    (List.range (n - (i + 1))).map fun k => (i, i + 1 + k))

def star (n : Nat) : Coupling :=
  (ofSize n).addEdges ((List.range (n - 1)).map fun i => (0, i + 1))

/-- The coupling of `n` qubits that has the shape of a name. -/
def ofShape? (name : String) (n : Nat) : Option Coupling :=
  ([("new", ofSize), ("linear", linear), ("full", full), ("star", star)].lookup name).map fun make => make n

/-! ## Couplings as JSON -/

def toJson (m : Coupling) : Json :=
  .ofFields [("edges", .array (m.edges.map fun (a, b) => .array [.ofNat a, .ofNat b])),
    ("num_qubits", .ofNat m.size)]

def edgeOfJson? (j : Json) : Option (Nat × Nat) := do
  let (a, b) ← j.pair?
  return (← a.index?, ← b.index?)

/-- The coupling that a configuration value describes, without neighbours. -/
def ofJson? (j : Json) : Option Coupling :=
  match j.record? ["edges", "num_qubits"] with
  | some [edges, size] => do
    return { edges := ← edges.listOf? edgeOfJson?, size := ← size.index? }
  | _ => none

end Coupling

end Wireloom
