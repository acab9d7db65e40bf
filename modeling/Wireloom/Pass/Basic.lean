import Wireloom.Compile.Workpiece
import Wireloom.Predicate.Registry
import Wireloom.Text.Quoted

/-!
# `Pass` — transformations with a contract

A pass is a single transformation with a contract, a sequence of passes, or a repetition of one. Contracts of
sequences and repetitions are worked out when they are built, so that passes that cannot follow each other are
refused before any circuit is touched.

A transformation changes the circuit and the unit maps and tells whether it changed anything. It may use an ambient
state `σ` that outlives the circuit, such as a count of its calls; the passes of the library use none.
-/

namespace Wireloom

/-- What a transformation works on. -/
structure Draft (σ : Type) where
  circuit : Circuit
  maps : UnitMaps
  ambient : σ

/-- A change of a draft. What was changed before a failure stays changed. -/
abbrev Drafting (σ : Type) := EStateM CompileError (Draft σ)

/-- A transformation; it tells whether it changed anything. -/
abbrev Transform (σ : Type) := Drafting σ Bool

abbrev Metric := Circuit → Nat

/-- A transformation of circuits with a contract. -/
inductive Pass (σ : Type) where
  /-- A single transformation. The parameters are what its configuration shows beside its name. -/
  | standard (name : String) (contract : Contract) (transform : Transform σ) (params : SortedMap String Json)
  /-- Passes one after the other. -/
  | sequence (passes : List (Pass σ)) (strict : Bool) (contract : Contract)
  /-- A pass again and again until it changes nothing. -/
  | repeated (body : Pass σ) (contract : Contract)
  /-- A pass again and again until a predicate holds. -/
  | untilSatisfied (body : Pass σ) (goal : Predicate) (contract : Contract)
  /-- A pass again and again while it lowers a cost. -/
  | whileImproving (body : Pass σ) (metricName : String) (metric : Metric) (contract : Contract)

namespace Pass

variable {σ : Type}

def contract : Pass σ → Contract
  | standard _ contract _ _ => contract
  | sequence _ _ contract => contract
  | repeated _ contract => contract
  | untilSatisfied _ _ contract => contract
  | whileImproving _ _ _ contract => contract

/-! ## Building passes -/

/-- Passes one after the other. A strict sequence refuses passes that contradict each other. -/
def ofList (passes : List (Pass σ)) (strict : Bool) : Except CompileError (Pass σ) :=
  match passes with
  | [] => .error .emptySequence
  | first :: rest => do
    return sequence passes strict (← Contract.chain strict first.contract (rest.map contract))

/-- The contract of a pass that follows itself. -/
def selfComposed (body : Pass σ) : Except CompileError Contract := body.contract.andThen body.contract true

def repeating (body : Pass σ) : Except CompileError (Pass σ) := do
  return repeated body (← body.selfComposed)

def repeatingUntil (body : Pass σ) (goal : Predicate) : Except CompileError (Pass σ) := do
  return untilSatisfied body goal (← body.selfComposed)

def repeatingWhileImproving (body : Pass σ) (metricName : String) (metric : Metric) :
    Except CompileError (Pass σ) := do
  return whileImproving body metricName metric (← body.selfComposed)

/-! ## Descriptions -/

def className : Pass σ → String
  | standard _ _ _ _ => "StandardPass"
  | sequence _ _ _ => "SequencePass"
  | repeated _ _ => "RepeatPass"
  | untilSatisfied _ _ _ => "RepeatUntilSatisfiedPass"
  | whileImproving _ _ _ _ => "RepeatWithMetricPass"

def name : Pass σ → String
  | standard name _ _ _ => name
  | p => p.className

def configOf (className : String) (body : Json) : Json :=
  .ofFields [("pass_class", .string className), (className, body)]

/-- The predicate in a configuration; one that cannot be stored leaves a null. -/
def goalConfig (goal : Predicate) : Json :=
  match goal.toJson with
  | .ok j => j
  | .error _ => .null

mutual

/-- The configuration from which a pass can be built again. -/
def config : Pass σ → Json
  | standard name _ _ params => configOf "StandardPass" (.ofFields (("name", .string name) :: params.entries))
  | sequence passes strict _ =>
    configOf "SequencePass" (.ofFields (("sequence", .array (configs passes)) ::
      if strict then [] else [("strict", .bool false)]))
  | repeated body _ => configOf "RepeatPass" (.ofFields [("body", body.config)])
  | untilSatisfied body goal _ =>
    configOf "RepeatUntilSatisfiedPass"
      (.ofFields [("body", body.config), ("predicate", goalConfig goal)])
  | whileImproving body metricName _ _ =>
    configOf "RepeatWithMetricPass"
      (.ofFields [("body", body.config), ("metric", .string metricName)])

def configs : List (Pass σ) → List Json
  | [] => []
  | p :: rest => p.config :: configs rest

end

def text (p : Pass σ) : String := "***PassType: " ++ p.className ++ "***\n" ++ p.contract.text

/-- A pass in one line: its name and its class. -/
def summary (p : Pass σ) : String :=
  "Pass \x7b name: " ++ Text.quoted p.name ++ ", pass_class: " ++ Text.quoted p.className ++ " \x7d"

end Pass

end Wireloom
