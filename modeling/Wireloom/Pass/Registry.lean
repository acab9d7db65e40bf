import Wireloom.Pass.Library

/-!
# `PassRegistry` — passes from configurations

Sequences and repetitions are built again from the shape of their configuration; single transformations, predicates
and costs are looked up by name in a registry.
-/

namespace Wireloom

abbrev PassConstructor (σ : Type) := Json → Except CompileError (Pass σ)

/-- What configurations may name. -/
structure PassRegistry (σ : Type) where
  passes : SortedMap String (PassConstructor σ) := .empty
  metrics : SortedMap String Metric := .empty
  predicates : PredicateRegistry := {}

namespace PassRegistry

variable {σ : Type}

def registerPass (r : PassRegistry σ) (name : String) (make : PassConstructor σ) : PassRegistry σ :=
  { r with passes := r.passes.insert name make }

def registerMetric (r : PassRegistry σ) (name : String) (metric : Metric) : PassRegistry σ :=
  { r with metrics := r.metrics.insert name metric }

def registerPredicate (r : PassRegistry σ) (name : String) (make : PredicateConstructor) : PassRegistry σ :=
  { r with predicates := r.predicates.register name make }

def makeRenameQubits : PassConstructor σ := fun body => do
  return .renameQubits (← Json.described (Pass.renamingOfConfig? (← body.field "qubit_map")))

/-- The registry of the structural passes, all predicates that can be stored and the sizes of a circuit. -/
def library : PassRegistry σ where
  passes := .ofList [
    ("FlattenRegisters", fun _ => .ok .flattenRegisters),
    ("RemoveBarriers", fun _ => .ok .removeBarriers),
    ("RemoveBlankWires", fun _ => .ok .removeBlankWires),
    ("RenameQubitsPass", makeRenameQubits)]
  metrics := .ofList [
    ("n_ops", Circuit.opCount),
    ("n_qubits", fun c => c.qubits.length),
    ("depth", Circuit.depth)]
  predicates := .library

def readStandard (r : PassRegistry σ) (body : Json) : Except CompileError (Pass σ) := do
  let name ← body.stringField "name"
  match r.passes.get? name with
  | some make => make body
  | none => .error (.configuration (.unknownPass name))

/-- The predicate that ends a repetition. -/
def readGoal (r : PassRegistry σ) (body : Json) : Except CompileError Predicate := do
  match ← body.field "predicate" with
  | .null => .error (.configuration .untilWithoutPredicate)
  | goal => r.predicates.read goal

/-- The cost that a repetition lowers. -/
def readMetric (r : PassRegistry σ) (body : Json) : Except CompileError (String × Metric) := do
  let name ← body.stringField "metric"
  match r.metrics.get? name with
  | some metric => .ok (name, metric)
  | none => .error (.configuration (.unknownMetric name))

/-- The pass that a configuration describes. -/
def read (r : PassRegistry σ) (j : Json) : Except CompileError (Pass σ) := do
  let className ← j.stringField "pass_class"
  let ⟨body, _⟩ ← j.part className
  match className with
  | "StandardPass" => r.readStandard body
  | "SequencePass" =>
    let ⟨items, _⟩ ← body.part "sequence"
    match items.parts? with
    | none => .error (.configuration .sequenceNotArray)
    | some items =>
      let passes ← items.mapM fun ⟨item, _⟩ => r.read item
      Pass.ofList passes (((body.get? "strict").bind Json.bool?).getD true)
  | "RepeatPass" =>
    let ⟨inner, _⟩ ← body.part "body"
    (← r.read inner).repeating
  | "RepeatUntilSatisfiedPass" =>
    let ⟨inner, _⟩ ← body.part "body"
    let inner ← r.read inner
    inner.repeatingUntil (← r.readGoal body)
  | "RepeatWithMetricPass" =>
    let ⟨inner, _⟩ ← body.part "body"
    let inner ← r.read inner
    let (name, metric) ← r.readMetric body
    inner.repeatingWhileImproving name metric
  | other => .error (.configuration (.unknownClass other))
termination_by sizeOf j
decreasing_by all_goals omega

end PassRegistry

end Wireloom
