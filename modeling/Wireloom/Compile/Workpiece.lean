import Wireloom.Compile.UnitMaps
import Wireloom.Contract.Basic

/-!
# `Workpiece` — a circuit under compilation

A workpiece is a circuit with the predicates that compilation has to reach, a cache of predicates that are
presumed true or false, and the unit maps. Passes keep the cache: `meetRequirements` uses it to skip checks, and
`recordPostconditions` brings it up to date.
-/

namespace Wireloom

/-- How much is checked while passes run. -/
inductive SafetyMode where
  /-- Everything that is required or promised is checked. -/
  | audit
  /-- What is required is checked unless the cache proves it. -/
  | standard
  /-- Nothing is checked; the cache is still kept. -/
  | off
  deriving DecidableEq

namespace SafetyMode

def text : SafetyMode → String
  | audit => "Audit"
  | standard => "Default"
  | off => "Off"

def toJson (m : SafetyMode) : Json := .string m.text

def ofName? (name : String) : Option SafetyMode := [audit, standard, off].find? fun m => m.text = name

def ofJson? (j : Json) : Option SafetyMode := j.bareCase?.bind ofName?

end SafetyMode

/-- A predicate of each kind, presumed true or false. -/
abbrev PredicateCache := SortedMap PredicateKind (Predicate × Bool)

/-- A circuit under compilation. -/
structure Workpiece where
  circuit : Circuit
  /-- What compilation has to reach. -/
  targets : PredicateMap := .empty
  /-- What is presumed about the circuit. -/
  cache : PredicateCache := .empty
  maps : UnitMaps := {}

namespace Workpiece

def satisfies (w : Workpiece) (p : Predicate) : Bool := p.verify w.circuit

def isFinished (w : Workpiece) : Bool := w.targets.values.all w.satisfies

/-- The workpiece with every target in the cache. -/
def seeded (w : Workpiece) : Workpiece :=
  { w with cache := w.targets.entries.foldl (fun cache (kind, p) => cache.insert kind (p, w.satisfies p)) w.cache }

def ofCircuit (c : Circuit) : Workpiece := { circuit := c, maps := .identity c }

def withTargets (c : Circuit) (targets : List Predicate) : Workpiece :=
  seeded { ofCircuit c with targets := Predicate.mapOf targets }

/-- Puts the targets into the cache, which has to be empty. -/
def initializeCache (w : Workpiece) : Except CompileError Workpiece :=
  if w.cache.isEmpty then .ok w.seeded else .error .cacheInitialized

/-- Whether the cache proves a predicate: it presumes a predicate of the same kind that implies it. -/
def trusts (w : Workpiece) (kind : PredicateKind) (p : Predicate) : Bool :=
  match w.cache.get? kind with
  | some (cached, true) => match cached.implies p with
    | .ok b => b
    | .error _ => false
  | _ => false

/-- Notes a predicate that was found true, unless the cache has one of its kind. -/
def noted (w : Workpiece) (kind : PredicateKind) (p : Predicate) : Workpiece :=
  if w.cache.contains kind then w else { w with cache := w.cache.insert kind (p, true) }

/-- Checks requirements one by one, trusting the cache and noting in it what was found true. Tells the first that
does not hold. -/
def checkEach (w : Workpiece) : List (PredicateKind × Predicate) → Option Predicate × Workpiece
  | [] => (none, w)
  | (kind, p) :: rest =>
    if w.trusts kind p then w.checkEach rest
    else if w.satisfies p then (w.noted kind p).checkEach rest
    else (some p, w)

/-- Checks the requirements of a pass, and all of them once more in an audit. -/
def meetRequirements (w : Workpiece) (pre : PredicateMap) (mode : SafetyMode) : Option Predicate × Workpiece :=
  match w.checkEach pre.entries with
  | (some p, w) => (some p, w)
  | (none, w) =>
    if mode = .audit then (pre.values.find? fun p => !w.satisfies p, w) else (none, w)

/-- The workpiece with every cached predicate presumed false whose kind may not have survived. -/
def clearUnkept (w : Workpiece) (post : Postconditions) : Workpiece :=
  { w with cache := w.cache.mapValues fun kind (p, truth) =>
      (p, truth && post.guarantee kind = .preserve) }

/-- Puts promised predicates into the cache; in an audit, tells the first that does not hold. -/
def recordEach (mode : SafetyMode) (w : Workpiece) :
    List (PredicateKind × Predicate) → Option Predicate × Workpiece
  | [] => (none, w)
  | (kind, p) :: rest =>
    if mode = .audit && !w.satisfies p then (some p, w)
    else recordEach mode { w with cache := w.cache.insert kind (p, true) } rest

/-- Brings the cache up to date after a pass. -/
def recordPostconditions (w : Workpiece) (post : Postconditions) (mode : SafetyMode) :
    Option Predicate × Workpiece :=
  recordEach mode (w.clearUnkept post) post.specific.entries

def text (w : Workpiece) : String :=
  let line (s : String) : String := "  " ++ s ++ "\n"
  "~~~CompilationUnit~~~\n" ++ w.circuit.text ++ "\n" ++
  "Target Predicates:\n" ++ String.join (w.targets.values.map fun p => line p.text) ++
  "Predicate Cache:\n" ++
  String.join (w.cache.values.map fun (p, truth) => line (p.text ++ if truth then ": true" else ": false")) ++
  "Initial Map: " ++ w.maps.initial.text ++ "\n" ++
  "Final Map: " ++ w.maps.final.text

end Workpiece

end Wireloom
