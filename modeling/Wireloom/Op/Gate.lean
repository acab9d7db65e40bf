import Wireloom.Angle.Serial
import Wireloom.Unit.Basic

/-!
# `Gate` — the standard gates

The unitary gates with a known inverse and transpose. Four of them turn by an angle; `Gate.mapAngle` acts
on the angle and leaves the rest alone.
-/

namespace Wireloom

inductive Gate where
  | i
  | x
  | z
  | h
  | s
  | sdg
  | t
  | tdg
  | sx
  | sxdg
  | rx (angle : Angle)
  | ry (angle : Angle)
  | rz (angle : Angle)
  | cx
  | cz
  | swap
  | crz (angle : Angle)
  | ccx

namespace Gate

def name : Gate → String
  | i => "id"
  | x => "x"
  | z => "z"
  | h => "h"
  | s => "s"
  | sdg => "sdg"
  | t => "t"
  | tdg => "tdg"
  | sx => "sx"
  | sxdg => "sxdg"
  | rx _ => "rx"
  | ry _ => "ry"
  | rz _ => "rz"
  | cx => "cx"
  | cz => "cz"
  | swap => "swap"
  | crz _ => "crz"
  | ccx => "ccx"

def arity : Gate → Nat
  | cx => 2
  | cz => 2
  | swap => 2
  | crz _ => 2
  | ccx => 3
  | _ => 1

def angle? : Gate → Option Angle
  | rx a => some a
  | ry a => some a
  | rz a => some a
  | crz a => some a
  | _ => none

def mapAngle (f : Angle → Angle) : Gate → Gate
  | rx a => rx (f a)
  | ry a => ry (f a)
  | rz a => rz (f a)
  | crz a => crz (f a)
  | g => g

def dagger : Gate → Gate
  | s => sdg
  | sdg => s
  | t => tdg
  | tdg => t
  | sx => sxdg
  | sxdg => sx
  | g => g.mapAngle fun a => -a

/-- The transposed gate. Of these gates only the turn about Y is not symmetric. -/
def transpose : Gate → Gate
  | ry a => ry (-a)
  | g => g

@[simp] theorem arity_mapAngle (f : Angle → Angle) (g : Gate) : (g.mapAngle f).arity = g.arity := by
  cases g <;> rfl

@[simp] theorem arity_dagger (g : Gate) : g.dagger.arity = g.arity := by cases g <;> rfl

@[simp] theorem arity_transpose (g : Gate) : g.transpose.arity = g.arity := by cases g <;> rfl

/-! ## Gates as JSON -/

def storedName : Gate → String
  | i => "I"
  | x => "X"
  | z => "Z"
  | h => "H"
  | s => "S"
  | sdg => "Sdg"
  | t => "T"
  | tdg => "Tdg"
  | sx => "SX"
  | sxdg => "SXdg"
  | rx _ => "Rx"
  | ry _ => "Ry"
  | rz _ => "Rz"
  | cx => "CX"
  | cz => "CZ"
  | swap => "Swap"
  | crz _ => "CRz"
  | ccx => "CCX"

/-- The gates without an angle. -/
def fixed : List Gate := [i, x, z, h, s, sdg, t, tdg, sx, sxdg, cx, cz, swap, ccx]

/-- The gates with an angle. -/
def turns : List (Angle → Gate) := [rx, ry, rz, crz]

def ofName? (name : String) : Option Gate := fixed.find? fun g => g.name = name

def turn? (name : String) : Option (Angle → Gate) := turns.find? fun turn => (turn .zero).name = name

def toJson (g : Gate) : Json :=
  match g.angle? with
  | some a => .object [(g.storedName, a.toJson)]
  | none => .string g.storedName

def ofJson? (j : Json) : Option Gate :=
  match j.bareCase?.bind fun name => fixed.find? fun g => g.storedName = name with
  | some g => some g
  | none =>
    match j.case? with
    | some (name, some payload) => do
      let turn ← turns.find? fun turn => (turn .zero).storedName = name
      return turn (← Angle.ofJson? payload)
    | _ => none

end Gate

end Wireloom
