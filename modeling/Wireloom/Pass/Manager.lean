import Wireloom.Pass.Apply

/-!
# `Manager` — a pipeline with its settings

A manager holds a sequence of passes, composed once when it is built, and how to run it.
-/

namespace Wireloom

/-- A pipeline of passes and how to run it. -/
structure Manager (σ : Type) where
  passes : List (Pass σ) := []
  /-- The sequence of the passes, if there are any. -/
  pipeline : Option (Pass σ) := none
  mode : SafetyMode := .standard
  hooks : Hooks σ := {}

namespace Manager

variable {σ : Type}

def build (passes : List (Pass σ)) (strict : Bool) (mode : SafetyMode) (hooks : Hooks σ) :
    Except CompileError (Manager σ) := do
  if passes.isEmpty then return { mode, hooks }
  else return { passes, pipeline := some (← Pass.ofList passes strict), mode, hooks }

/-- Runs the pipeline and tells whether it changed anything. -/
def run (m : Manager σ) (fuel : Nat) : Run σ Bool :=
  match m.pipeline with
  | some pipeline => pipeline.apply fuel m.mode m.hooks
  | none => return false

def size (m : Manager σ) : Nat := m.passes.length

def isEmpty (m : Manager σ) : Bool := m.pipeline.isNone

def contract? (m : Manager σ) : Option Contract := m.pipeline.map Pass.contract

def config? (m : Manager σ) : Option Json := m.pipeline.map Pass.config

end Manager

end Wireloom
