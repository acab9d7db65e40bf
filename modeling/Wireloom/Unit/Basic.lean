import Wireloom.SortedMap

/-!
# `UnitId` — the named wires of a circuit

A unit is a named logical wire: a qubit, a bit or a channel of auxiliary state, given by its kind, a
register and an index in it. Units are ordered by kind, register and index; this canonical order is the
order of every boundary, hole and listing of units.

`WireKind` is what an edge carries. A wire is linear, with one edge in and one edge out, unless it is a
Boolean read, which only looks at the value of a bit.
-/

namespace Wireloom

open Std

/-- The kinds of unit, in canonical order. -/
inductive UnitKind where
  | qubit
  | bit
  | wasm
  | rng
  deriving DecidableEq

/-- The kinds of data that an edge carries. A Boolean edge reads a bit without writing it. -/
inductive WireKind where
  | quantum
  | classical
  | boolean
  | wasm
  | rng
  deriving DecidableEq

/-- The wire kind that each pin of an operation takes. -/
abbrev Signature := List WireKind

namespace UnitKind

def rank : UnitKind → Nat
  | qubit => 0
  | bit => 1
  | wasm => 2
  | rng => 3

theorem rank_injective {a b : UnitKind} (h : a.rank = b.rank) : a = b := by
  cases a <;> cases b <;> simp_all [rank]

/-- The kind of the linear edges of a unit. -/
def wire : UnitKind → WireKind
  | qubit => .quantum
  | bit => .classical
  | wasm => .wasm
  | rng => .rng

def defaultRegister : UnitKind → String
  | qubit => "q"
  | bit => "c"
  | wasm => "_w"
  | rng => "_r"

def text : UnitKind → String
  | qubit => "qubit"
  | bit => "bit"
  | wasm => "wasm"
  | rng => "rng"

end UnitKind

namespace WireKind

def rank : WireKind → Nat
  | quantum => 0
  | classical => 1
  | boolean => 2
  | wasm => 3
  | rng => 4

/-- Whether a wire of this kind has one edge in and one edge out at every pin. -/
def isLinear : WireKind → Bool
  | boolean => false
  | _ => true

/-- The kind of unit that a pin of this wire kind is bound to. -/
def unitKind : WireKind → UnitKind
  | quantum => .qubit
  | classical => .bit
  | boolean => .bit
  | wasm => .wasm
  | rng => .rng

@[simp] theorem unitKind_wire (k : UnitKind) : k.wire.unitKind = k := by cases k <;> rfl

@[simp] theorem isLinear_wire (k : UnitKind) : k.wire.isLinear = true := by cases k <;> rfl

def text : WireKind → String
  | quantum => "Quantum"
  | classical => "Classical"
  | boolean => "Boolean"
  | wasm => "Wasm"
  | rng => "Rng"

end WireKind

/-- A unit: its kind, its register and its index in the register. -/
structure UnitId where
  kind : UnitKind
  register : String
  index : List Nat
  deriving DecidableEq

namespace UnitId

/-- The canonical order: by kind, then register, then index. -/
def order : UnitId → UnitId → Ordering :=
  compareLex (compareOn fun u => u.kind.rank) (compareLex (compareOn register) (compareOn index))

instance : Ord UnitId := ⟨order⟩

instance : TransOrd UnitId := inferInstanceAs (TransCmp (compareLex (compareOn fun u : UnitId => u.kind.rank)
  (compareLex (compareOn register) (compareOn index))))

instance : LawfulEqOrd UnitId where
  eq_of_compare {a b} h := by
    have h' : order a b = .eq := h
    simp only [order, compareLex_eq_eq, compareOn] at h'
    obtain ⟨hk, hr, hi⟩ := h'
    cases a
    cases b
    simp only [mk.injEq]
    exact ⟨UnitKind.rank_injective (LawfulEqCmp.eq_of_compare hk), LawfulEqCmp.eq_of_compare hr,
      LawfulEqCmp.eq_of_compare hi⟩

/-- The unit at `i` of the default register of its kind. -/
def ofIndex (kind : UnitKind) (i : Nat) : UnitId := ⟨kind, kind.defaultRegister, [i]⟩

def qubit (i : Nat) : UnitId := ofIndex .qubit i

def bit (i : Nat) : UnitId := ofIndex .bit i

def nodeRegister : String := "node"

def node (i : Nat) : UnitId := ⟨.qubit, nodeRegister, [i]⟩

def isQubit (u : UnitId) : Bool := u.kind = .qubit

def isBit (u : UnitId) : Bool := u.kind = .bit

/-- Whether the unit lives in the default register of its kind, under a single index. -/
def inDefaultRegister (u : UnitId) : Bool :=
  u.register = u.kind.defaultRegister && u.index.length = 1

/-- The text of a unit: its register, then its index in brackets unless that is empty. -/
def text (u : UnitId) : String :=
  match u.index with
  | [] => u.register
  | index => u.register ++ "[" ++ ",".intercalate (index.map toString) ++ "]"

end UnitId

end Wireloom
