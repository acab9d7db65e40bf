import Wireloom.Graph.Edit
import Wireloom.Graph.Order

/-!
# `Circuit` — a graph with named wires

A circuit is a graph together with its boundary, the two ends of every unit in canonical order, a global
phase, an optional name and the signatures of its opgroups.

Questions to a circuit are answered in `Except`, changes are made in `Circuit.Edit`. As for graphs, what an
edit changed before it failed stays changed. `Circuit.edited` is the circuit after an edit that succeeds.
-/

namespace Wireloom

/-- The two ends of a unit's wire. -/
structure Ends where
  input : Vertex
  output : Vertex
  deriving DecidableEq

structure Circuit where
  graph : Graph := {}
  /-- The ends of every unit. -/
  boundary : SortedMap UnitId Ends := .empty
  phase : Angle := .zero
  name : Option String := none
  /-- The signature that the operations of an opgroup share. -/
  opgroups : SortedMap String Signature := .empty

namespace Circuit

/-! ## Units -/

def units (c : Circuit) : List UnitId := c.boundary.keys

def qubits (c : Circuit) : List UnitId := c.units.filter UnitId.isQubit

def bits (c : Circuit) : List UnitId := c.units.filter UnitId.isBit

def hasUnit (c : Circuit) (u : UnitId) : Bool := c.boundary.contains u

/-- Whether every unit lives in the default register of its kind. -/
def isSimple (c : Circuit) : Bool := c.units.all UnitId.inDefaultRegister

def ends (c : Circuit) (u : UnitId) : Except CircuitError Ends :=
  match c.boundary.get? u with
  | some ends => .ok ends
  | none => .error (.unitNotFound u)

def unitStartingAt? (c : Circuit) (v : Vertex) : Option UnitId :=
  (c.boundary.entries.find? fun p => p.2.input = v).map Prod.fst

def isCreated (c : Circuit) (u : UnitId) : Except CircuitError Bool := do
  return (← c.graph.kind (← c.ends u).input).isCreate

def isDiscarded (c : Circuit) (u : UnitId) : Except CircuitError Bool := do
  return (← c.graph.kind (← c.ends u).output).isDiscard

def createdUnits (c : Circuit) : List UnitId :=
  (c.boundary.entries.filter fun p => (c.graph.vertices.get? p.2.input).any fun n => n.kind.isCreate).map Prod.fst

def discardedUnits (c : Circuit) : List UnitId :=
  (c.boundary.entries.filter fun p => (c.graph.vertices.get? p.2.output).any fun n => n.kind.isDiscard).map Prod.fst

/-- Every unit of one register has the same kind and as many indices as the others. -/
def checkRegister (c : Circuit) (u : UnitId) : Except CircuitError Unit :=
  match c.units.find? fun v =>
      v.register = u.register && (v.kind ≠ u.kind || v.index.length ≠ u.index.length) with
  | some clash => .error (.invalid (.registerClash u.register clash))
  | none => .ok ()

/-! ## Operations -/

def opAt (c : Circuit) (v : Vertex) : Except CircuitError Op := do
  match (← c.graph.kind v).op? with
  | some op => .ok op
  | none => .error (.invalid .notOperation)

/-- Whether a vertex holds an operation with a link into each of its pins. -/
def isWired (c : Circuit) (v : Vertex) (n : Node) : Bool :=
  match n.kind.op? with
  | some op => (c.graph.incoming v).length = op.signature.length
  | none => false

def opCount (c : Circuit) : Nat := c.graph.vertices.entries.countP fun p => c.isWired p.1 p.2

/-- The vertices of an opgroup in the order in which they were made. -/
def opgroupVertices (c : Circuit) (opgroup : String) : List Vertex :=
  (c.graph.bySequence.filter fun p => p.2.opgroup = some opgroup).map Prod.fst

/-! ## Edits -/

abbrev Edit := EStateM CircuitError Circuit

def ask {α : Type} (question : Circuit → Except CircuitError α) : Edit α := do
  match question (← get) with
  | .ok a => return a
  | .error e => throw e

/-- An edit of the graph as an edit of the circuit. -/
def onGraph {α : Type} (edit : Graph.Edit α) : Edit α := fun c =>
  match edit c.graph with
  | .ok a g => .ok a { c with graph := g }
  | .error e g => .error e { c with graph := g }

/-- A change that is made as a whole or not at all. -/
def revise {α : Type} (change : Circuit → Except CircuitError (α × Circuit)) : Edit α := fun c =>
  match change c with
  | .ok (a, c') => .ok a c'
  | .error e => .error e c

def edited {α : Type} (c : Circuit) (edit : Edit α) : Except CircuitError Circuit :=
  match edit c with
  | .ok _ c' => .ok c'
  | .error e _ => .error e

def plusPhase (c : Circuit) (a : Angle) : Circuit := { c with phase := c.phase + a }

def addPhase (a : Angle) : Edit Unit := modify (·.plusPhase a)

end Circuit

end Wireloom
