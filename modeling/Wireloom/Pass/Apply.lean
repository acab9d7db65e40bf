import Wireloom.Pass.Basic

/-!
# `Pass.apply` — running passes

Passes run on a session: a workpiece and the ambient state. Hooks see the workpiece before and after every pass
and may write to the ambient state.

A repetition that never ends has no answer, so the number of rounds of every unbounded repetition is limited by
`fuel`; a run that needs more halts with `exhausted`. Repetitions that lower a cost end by themselves.
-/

namespace Wireloom

/-- What passes run on. -/
structure Session (σ : Type) where
  piece : Workpiece
  ambient : σ

/-- Why a run halts without an answer. -/
inductive Halt where
  | failed (cause : CompileError)
  /-- A repetition went on longer than allowed. -/
  | exhausted

/-- A run of passes. What was changed before it halts stays changed. -/
abbrev Run (σ : Type) := EStateM Halt (Session σ)

/-- Looks at the workpiece and the configuration of a pass and may write to the ambient state. -/
abbrev Hook (σ : Type) := Workpiece → Json → σ → σ

/-- What is called before and after every pass. -/
structure Hooks (σ : Type) where
  before : Option (Hook σ) := none
  after : Option (Hook σ) := none

def Hooks.summary {σ : Type} (h : Hooks σ) : String :=
  let told (b : Bool) : String := if b then "true" else "false"
  "Callbacks \x7b before: " ++ told h.before.isSome ++ ", after: " ++ told h.after.isSome ++ " \x7d"

namespace Run

variable {σ : Type}

def call (hook : Option (Hook σ)) (p : Pass σ) : Run σ Unit :=
  match hook with
  | some hook => modify fun s => { s with ambient := hook s.piece p.config s.ambient }
  | none => return

def between (hooks : Hooks σ) (p : Pass σ) (run : Run σ Bool) : Run σ Bool := do
  call hooks.before p
  let changed ← run
  call hooks.after p
  return changed

/-- Goes on with a workpiece, unless a predicate was found not to hold. -/
def check (step : Workpiece → Option Predicate × Workpiece) : Run σ Unit := fun s =>
  match step s.piece with
  | (none, piece) => .ok () { s with piece }
  | (some p, piece) => .error (.failed (.unsatisfied p.text)) { s with piece }

def transform (t : Transform σ) : Run σ Bool := fun s =>
  let back (d : Draft σ) : Session σ := ⟨{ s.piece with circuit := d.circuit, maps := d.maps }, d.ambient⟩
  match t ⟨s.piece.circuit, s.piece.maps, s.ambient⟩ with
  | .ok changed d => .ok changed (back d)
  | .error e d => .error (.failed e) (back d)

def standard (contract : Contract) (mode : SafetyMode) (t : Transform σ) : Run σ Bool := do
  if mode ≠ .off then check fun w => w.meetRequirements contract.pre mode
  let changed ← transform t
  check fun w => w.recordPostconditions contract.post mode
  return changed

/-- Repeats a run until it changes nothing and counts the changes. -/
def whileChanging (body : Run σ Bool) : Nat → Run σ Nat
  | 0 => throw .exhausted
  | fuel + 1 => do
    if ← body then return (← whileChanging body fuel) + 1 else return 0

/-- Repeats a run until the workpiece satisfies a predicate and counts the rounds. -/
def untilSatisfied (goal : Predicate) (body : Run σ Bool) (fuel : Nat) : Run σ Nat := do
  if (← get).piece.satisfies goal then return 0
  else match fuel with
    | 0 => throw .exhausted
    | fuel + 1 => do
      let _ ← body
      return (← untilSatisfied goal body fuel) + 1

/-- Repeats a run while it brings the cost below `best`, and gives the last workpiece that did. -/
def whileImproving (metric : Metric) (body : Run σ Bool) (best : Nat) : Run σ (Option Workpiece) := do
  let _ ← body
  let piece := (← get).piece
  let value := metric piece.circuit
  if value < best then
    return some ((← whileImproving metric body value).getD piece)
  else return none
termination_by best

/-- Repeats a run while it lowers the cost, and keeps the best workpiece. If it fails, the workpiece stays what it
was. -/
def improving (metric : Metric) (body : Run σ Bool) : Run σ Bool := fun s =>
  match whileImproving metric body (metric s.piece.circuit) s with
  | .ok better s' => .ok better.isSome { s' with piece := better.getD s.piece }
  | .error e s' => .error e { s' with piece := s.piece }

end Run

namespace Pass

variable {σ : Type}

mutual

/-- Runs a pass and tells whether it changed anything. -/
def apply (fuel : Nat) (mode : SafetyMode) (hooks : Hooks σ) : Pass σ → Run σ Bool
  | p@(.standard _ contract t _) => Run.between hooks p (Run.standard contract mode t)
  | p@(.sequence passes _ _) => Run.between hooks p (applyAll fuel mode hooks passes)
  | p@(.repeated body _) =>
    Run.between hooks p do return (← Run.whileChanging (body.apply fuel mode hooks) fuel) > 0
  | p@(.untilSatisfied body goal _) =>
    Run.between hooks p do return (← Run.untilSatisfied goal (body.apply fuel mode hooks) fuel) > 0
  | p@(.whileImproving body _ metric _) =>
    Run.between hooks p (Run.improving metric (body.apply fuel mode hooks))

/-- Runs passes one after the other and tells whether any changed anything. -/
def applyAll (fuel : Nat) (mode : SafetyMode) (hooks : Hooks σ) : List (Pass σ) → Run σ Bool
  | [] => return false
  | p :: rest => do
    let first ← p.apply fuel mode hooks
    let others ← applyAll fuel mode hooks rest
    return first || others

end

end Pass

end Wireloom
