import Wireloom.Circuit.Units
import Wireloom.Compile.Error

/-!
# `UnitMaps` — which units stand for which

A `UnitBimap` pairs each unit from the start of a compilation, on the left, with the unit that stands for it now,
on the right. It is kept in both directions; every change keeps the two directions inverse to each other.
`UnitMaps` are the two bimaps that every transformation keeps up to date: where a unit is placed at the start, and
where its final state is.
-/

namespace Wireloom

/-- Pairs of units, each unit at most once on each side. -/
structure UnitBimap where
  rights : SortedMap UnitId UnitId := .empty
  lefts : SortedMap UnitId UnitId := .empty
  deriving DecidableEq

namespace UnitBimap

def empty : UnitBimap := {}

def pairs (m : UnitBimap) : List (UnitId × UnitId) := m.rights.entries

def size (m : UnitBimap) : Nat := m.rights.size

def isEmpty (m : UnitBimap) : Bool := m.rights.isEmpty

/-- The unit that stands for `left`. -/
def right? (m : UnitBimap) (left : UnitId) : Option UnitId := m.rights.get? left

/-- The unit that `right` stands for. -/
def left? (m : UnitBimap) (right : UnitId) : Option UnitId := m.lefts.get? right

def eraseRight (m : UnitBimap) (right : UnitId) : UnitBimap :=
  match m.left? right with
  | some left => ⟨m.rights.erase left, m.lefts.erase right⟩
  | none => m

def eraseLeft (m : UnitBimap) (left : UnitId) : UnitBimap :=
  match m.right? left with
  | some right => ⟨m.rights.erase left, m.lefts.erase right⟩
  | none => m

/-- The bimap with a pair in the place of all pairs that share a unit with it on the same side. -/
def insert (m : UnitBimap) (left right : UnitId) : UnitBimap :=
  let m := (m.eraseRight right).eraseLeft left
  ⟨m.rights.insert left right, m.lefts.insert right left⟩

def identity (units : List UnitId) : UnitBimap := units.foldl (fun m u => m.insert u u) empty

/-- Takes the pairs of right units that are renamed out of the bimap: what stays, and the pairs under their new
right units. -/
def extract (m : UnitBimap) : List (UnitId × UnitId) → UnitBimap × List (UnitId × UnitId)
  | [] => (m, [])
  | (old, new) :: rest =>
    match m.left? old with
    | some left =>
      let (kept, moved) := (m.eraseRight old).extract rest
      (kept, (left, new) :: moved)
    | none => m.extract rest

/-- The bimap with its right units renamed, all at once, and whether a name changed. -/
def renameRight (m : UnitBimap) (ρ : Renaming) : Bool × UnitBimap :=
  let (kept, moved) := m.extract ρ.entries
  let changed := ρ.entries.any fun (old, new) => (m.left? old).isSome && old ≠ new
  (changed, moved.foldl (fun m (left, right) => m.insert left right) kept)

def text (m : UnitBimap) : String :=
  "\x7b" ++ ", ".intercalate (m.pairs.map fun (l, r) => l.text ++ " -> " ++ r.text) ++ "\x7d"

/-- A bimap as a configuration value. Units are no keys of an object, so only a bimap without pairs has one. -/
def toJson? (m : UnitBimap) : Option Json :=
  if m.rights.isEmpty && m.lefts.isEmpty then
    some (.ofFields [("left_to_right", .object []), ("right_to_left", .object [])])
  else none

def ofJson? (j : Json) : Option UnitBimap :=
  match j.record? ["left_to_right", "right_to_left"] with
  | some [.object [], .object []] => some empty
  | _ => none

end UnitBimap

/-- Where each unit from the start is placed, and where its final state is. -/
structure UnitMaps where
  /-- The unit that each one starts on. -/
  initial : UnitBimap := {}
  /-- The unit that holds the final state of each one. -/
  final : UnitBimap := {}
  deriving DecidableEq

namespace UnitMaps

def identity (c : Circuit) : UnitMaps := ⟨.identity c.units, .identity c.units⟩

/-- The maps with both renamed, and whether a name changed. -/
def rename (m : UnitMaps) (initial final : Renaming) : Bool × UnitMaps :=
  let (a, initial) := m.initial.renameRight initial
  let (b, final) := m.final.renameRight final
  (a || b, ⟨initial, final⟩)

/-- The maps with a new unit, which must be on neither side of either map. -/
def addUnit (m : UnitMaps) (u : UnitId) : Except CompileError UnitMaps :=
  if (m.initial.left? u).isSome || (m.final.left? u).isSome then .error (.unitMaps (.present u))
  else if (m.initial.right? u).isSome || (m.final.right? u).isSome then
    .error (.unitMaps (.tracked u))
  else .ok ⟨m.initial.insert u u, m.final.insert u u⟩

/-- The maps without a unit of the circuit, and whether it was there. -/
def removeUnit (m : UnitMaps) (u : UnitId) : Bool × UnitMaps :=
  ((m.initial.left? u).isSome || (m.final.left? u).isSome,
    ⟨m.initial.eraseRight u, m.final.eraseRight u⟩)

def toJson? (m : UnitMaps) : Option Json := do
  return .ofFields [("initial_map", ← m.initial.toJson?), ("final_map", ← m.final.toJson?)]

def ofJson? (j : Json) : Option UnitMaps :=
  match j.record? ["initial_map", "final_map"] with
  | some [initial, final] => do return ⟨← UnitBimap.ofJson? initial, ← UnitBimap.ofJson? final⟩
  | _ => none

end UnitMaps

end Wireloom
