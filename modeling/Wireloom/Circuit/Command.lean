import Wireloom.Angle.SymbolTable
import Wireloom.Circuit.Basic

/-!
# `Command` — a circuit as a list of operations on units

`Circuit.commands` walks the graph and reads off, for every operation, the units that its pins stand on. A
unit's name is carried along its linear wire from pin to pin, starting at the boundary. Vertices that were
cut off, or whose wires do not lead back to a unit, are passed over.
-/

namespace Wireloom

/-- An operation on units. -/
structure Command where
  op : Op
  args : List UnitId
  opgroup : Option String
  vertex : Vertex

def Command.text (cmd : Command) : String :=
  match cmd.args with
  | [] => cmd.op.text ++ ";"
  | args => cmd.op.text ++ " " ++ ", ".intercalate (args.map UnitId.text) ++ ";"

namespace Circuit

/-- The unit whose wire leaves a pin, the latest first. -/
abbrev Wires := List (Pin × UnitId)

/-- The units that the links into `v` carry, up to the first that is not known, and the wires with the
linear ones carried on to the pins of `v`. -/
def carry (v : Vertex) : List (Edge × Link) → Wires → List UnitId × Wires
  | [], wires => ([], wires)
  | (_, l) :: rest, wires =>
    match wires.lookup l.source with
    | none => ([], wires)
    | some u =>
      let (us, wires) := carry v rest
        (if l.kind.isLinear then (⟨v, l.target.index⟩, u) :: wires else wires)
      (u :: us, wires)

def commandsAlong (c : Circuit) : List Vertex → Wires → List Command
  | [], _ => []
  | v :: rest, wires =>
    match c.graph.vertices.get? v with
    | some ⟨.op op, opgroup, _⟩ =>
      let links := c.graph.inLinks v
      if links.length = op.signature.length then
        let (args, wires) := carry v links wires
        if args.length = op.signature.length then
          ⟨op, args, opgroup, v⟩ :: commandsAlong c rest wires
        else commandsAlong c rest wires
      else commandsAlong c rest wires
    | _ => commandsAlong c rest wires

/-- The wires at the start: every unit leaves its input. The last unit of an input counts. -/
def startWires (c : Circuit) : Wires :=
  (c.boundary.entries.map fun p => (⟨p.2.input, 0⟩, p.1)).reverse

/-- The operations of a circuit with their units, each after those that it depends on. -/
def commands (c : Circuit) : List Command := c.commandsAlong c.graph.walk c.startWires

/-- The text of a circuit: a line for each command, then the global phase. -/
def text (c : Circuit) : String :=
  String.join (c.commands.map fun cmd => cmd.text ++ "\n") ++ "global phase: " ++ c.phase.text

/-! ## Depth -/

/-- The depth of every unit after one more command: one more than the deepest of its units. -/
def deepen (depths : SortedMap UnitId Nat) (args : List UnitId) : Nat × SortedMap UnitId Nat :=
  let d := args.foldl (fun d u => max d ((depths.get? u).getD 0)) 0 + 1
  (d, args.foldl (fun depths u => depths.insert u d) depths)

/-- The length of the longest chain of commands where each shares a unit with the next. -/
def depth (c : Circuit) : Nat :=
  (c.commands.foldl (fun (most, depths) cmd =>
    let (d, depths) := deepen depths cmd.args
    (max most d, depths)) (0, SortedMap.empty)).1

/-! ## Symbols -/

/-- The free symbols of the global phase and of every command. -/
def symbols (c : Circuit) : SortedSet String :=
  c.commands.foldl (fun s cmd => SortedSet.union s cmd.op.symbols) c.phase.symbols

def isSymbolic (c : Circuit) : Bool := !c.symbols.isEmpty

/-- The circuit with symbols bound in every operation and in the global phase. -/
def bindSymbols (c : Circuit) (σ : Binding) : Circuit :=
  let bound (n : Node) : Node :=
    match n.kind with
    | .op op =>
      match op.bind? σ with
      | some op => { n with kind := .op op }
      | none => n
    | _ => n
  let entries := c.graph.vertices.entries.map fun p => (p.1, bound p.2)
  { c with
    graph := { c.graph with vertices := { c.graph.vertices with entries } },
    phase := (c.phase.bind σ).simplify }

/-- Binds symbols and enters the symbols of all terms of the binding in the table. -/
def substituteSymbols (c : Circuit) (σ : Binding) (table : SymbolTable) : Circuit × SymbolTable :=
  (c.bindSymbols σ, σ.values.foldl SymbolTable.registerAll table)

end Circuit

end Wireloom
