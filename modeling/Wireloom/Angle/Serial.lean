import Wireloom.Angle.Basic
import Wireloom.Json.Shape

/-!
# `Angle.Serial` — angles as JSON

A term is a case of its outermost operator: `"Pi"`, `Constant` with a number, `Symbol` with a name, `Neg`
with a term, `Add` and `Mul` with a pair of terms.
-/

namespace Wireloom.Angle

def toJson : Angle → Json
  | const x => .object [("Constant", .float x)]
  | symbol s => .object [("Symbol", .string s)]
  | pi => .string "Pi"
  | neg a => .object [("Neg", a.toJson)]
  | add a b => .object [("Add", .array [a.toJson, b.toJson])]
  | mul a b => .object [("Mul", .array [a.toJson, b.toJson])]

def ofJson? : Json → Option Angle
  | .string name => if name = "Pi" then some pi else none
  | .object [(name, payload)] =>
    if name = "Pi" then
      match payload with
      | .null => some pi
      | _ => none
    else if name = "Constant" then payload.number?.map const
    else if name = "Symbol" then payload.string?.map symbol
    else if name = "Neg" then (ofJson? payload).map neg
    else if name = "Add" then
      match payload with
      | .array [a, b] => (ofJson? a).bind fun a => (ofJson? b).map fun b => add a b
      | _ => none
    else if name = "Mul" then
      match payload with
      | .array [a, b] => (ofJson? a).bind fun a => (ofJson? b).map fun b => mul a b
      | _ => none
    else none
  | _ => none

end Wireloom.Angle
