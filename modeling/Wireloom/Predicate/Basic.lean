import Wireloom.Circuit.Command
import Wireloom.Compile.Error
import Wireloom.Device.Coupling

/-!
# `Predicate` — properties of circuits that can be checked

A predicate is a Boolean check of a circuit. Predicates of one kind form a meet semilattice: `implies` compares
two of them without looking at a circuit, and `meet` is the weakest one that implies both. Between kinds, and for
a test given as a function, neither is defined.

* `Predicate.verify` checks a circuit;
* `Predicate.implies` and `Predicate.meet` are the algebra;
* `Predicate.text` is what listings and error messages show.
-/

namespace Wireloom

/-- The properties that take no parameter. -/
inductive Property where
  /-- No operation acts on more than two qubits; barriers may. -/
  | maxTwoQubitGates
  | noClassicalBits
  /-- No operation is under a condition. -/
  | noClassicalControl
  | noBarriers
  /-- No unit is touched again after a measurement that it took part in. -/
  | noMidMeasure
  /-- No symbol is left unbound. -/
  | noSymbols
  /-- Every unit lives in the default register of its kind. -/
  | defaultRegister
  deriving DecidableEq

/-- A property of circuits that can be checked. -/
inductive Predicate where
  /-- Every operation but barriers has one of these names. -/
  | gateSet (allowed : SortedSet String)
  /-- There are at most so many qubits. -/
  | maxQubits (n : Nat)
  /-- Every qubit is a node of the device, and every two qubits of an operation are coupled. -/
  | connectivity (device : Coupling)
  /-- A test of one's own. -/
  | userDefined (test : Circuit → Bool)
  | property (t : Property)

def Property.name : Property → String
  | maxTwoQubitGates => "MaxTwoQubitGatesPredicate"
  | noClassicalBits => "NoClassicalBitsPredicate"
  | noClassicalControl => "NoClassicalControlPredicate"
  | noBarriers => "NoBarriersPredicate"
  | noMidMeasure => "NoMidMeasurePredicate"
  | noSymbols => "NoSymbolsPredicate"
  | defaultRegister => "DefaultRegisterPredicate"

def Property.all : List Property :=
  [maxTwoQubitGates, noClassicalBits, noClassicalControl, noBarriers, noMidMeasure, noSymbols,
    defaultRegister]

namespace PredicateKind

def gateSet : PredicateKind := ⟨"GateSetPredicate"⟩

def maxQubits : PredicateKind := ⟨"MaxNQubitsPredicate"⟩

def connectivity : PredicateKind := ⟨"ConnectivityPredicate"⟩

def userDefined : PredicateKind := ⟨"UserDefinedPredicate"⟩

def property (t : Property) : PredicateKind := ⟨t.name⟩

end PredicateKind

abbrev PredicateMap := SortedMap PredicateKind Predicate

namespace Predicate

def kind : Predicate → PredicateKind
  | gateSet _ => .gateSet
  | maxQubits _ => .maxQubits
  | connectivity _ => .connectivity
  | userDefined _ => .userDefined
  | property t => .property t

/-- The predicates of a list under their kinds; a later one of the same kind wins. -/
def mapOf (ps : List Predicate) : PredicateMap := .ofList (ps.map fun p => (p.kind, p))

def text : Predicate → String
  | gateSet allowed =>
    "GateSetPredicate:\x7b " ++ String.join (allowed.toList.map fun name => name ++ " ") ++ "\x7d"
  | maxQubits n => s!"MaxNQubitsPredicate({n})"
  | connectivity device =>
    s!"ConnectivityPredicate:\x7b Nodes: {device.size}, Edges: {device.edges.length} \x7d"
  | userDefined _ => "UserDefinedPredicate"
  | property t => t.name

end Predicate

/-! ## Checking a circuit -/

namespace Command

def qubits (cmd : Command) : List UnitId := cmd.args.filter UnitId.isQubit

/-- Whether a command is a barrier, under conditions or not. -/
def isBarrier (cmd : Command) : Bool := cmd.op.innermost.isBarrier

end Command

namespace Coupling

/-- The node of a device that a unit stands for. -/
def nodeOf? (device : Coupling) (u : UnitId) : Option Nat :=
  match u.index with
  | [i] =>
    if u.isQubit && u.register = UnitId.nodeRegister && device.hasNode i then some i else none
  | _ => none

/-- Whether the nodes under a command are coupled: at most one node, or two neighbours. -/
def allows (device : Coupling) (cmd : Command) : Bool :=
  cmd.isBarrier ||
    match cmd.qubits.filterMap device.nodeOf? with
    | [a, b] => device.isConnected a b
    | nodes => nodes.length < 2

end Coupling

/-- Whether an operation touches no unit of `measured`, and `measured` with what it measures itself. -/
def measureOnce : Op → List UnitId → SortedSet UnitId → Bool × SortedSet UnitId
  | .conditional op width _, args, measured =>
    if (args.take width).any measured.contains then (false, measured)
    else measureOnce op (args.drop width) measured
  | .measure, args, measured =>
    match args with
    | q :: c :: _ =>
      let withQubit := measured.add q
      (!measured.contains q && !withQubit.contains c, withQubit.add c)
    | _ => (false, measured)
  | _, args, measured => (args.all fun u => !measured.contains u, measured)

/-- Whether no command touches a unit after it was measured. -/
def measuresLast : List Command → SortedSet UnitId → Bool
  | [], _ => true
  | cmd :: rest, measured =>
    let (fresh, measured) := measureOnce cmd.op cmd.args measured
    fresh && measuresLast rest measured

def Property.verify (c : Circuit) : Property → Bool
  | maxTwoQubitGates => c.commands.all fun cmd => cmd.isBarrier || cmd.qubits.length ≤ 2
  | noClassicalBits => c.bits.isEmpty
  | noClassicalControl => c.commands.all fun cmd => !cmd.op.isConditional
  | noBarriers => c.commands.all fun cmd => !cmd.isBarrier
  | noMidMeasure => c.bits.isEmpty || measuresLast c.commands .empty
  | noSymbols => !c.isSymbolic
  | defaultRegister => c.isSimple

namespace Predicate

def verify (c : Circuit) : Predicate → Bool
  | gateSet allowed => c.commands.all fun cmd => cmd.isBarrier || allowed.contains cmd.op.innermost.name
  | maxQubits n => c.qubits.length ≤ n
  | connectivity device =>
    c.qubits.all (fun q => (device.nodeOf? q).isSome) && c.commands.all device.allows
  | userDefined test => test c
  | property t => t.verify c

/-! ## The algebra -/

/-- Whether `p` being true makes `q` true. -/
def implies (p q : Predicate) : Except CompileError Bool :=
  match p, q with
  | gateSet a, gateSet b => .ok (a.subset b)
  | maxQubits m, maxQubits n => .ok (m ≤ n)
  | connectivity d, connectivity e => .ok (d.isSubgraphOf e)
  | property s, property t => if s = t then .ok true else .error (.incomparable .differentKinds)
  | userDefined _, _ => .error (.incomparable .userImplication)
  | _, _ => .error (.incomparable .differentKinds)

/-- The weakest predicate that implies both. -/
def meet (p q : Predicate) : Except CompileError Predicate :=
  match p, q with
  | gateSet a, gateSet b => .ok (gateSet (a.inter b))
  | maxQubits m, maxQubits n => .ok (maxQubits (min m n))
  | connectivity d, connectivity e => .ok (connectivity (d.inter e))
  | property s, property t =>
    if s = t then .ok (property s) else .error (.incomparable .differentKinds)
  | userDefined _, _ => .error (.incomparable .userMeet)
  | _, _ => .error (.incomparable .differentKinds)

end Predicate

end Wireloom
