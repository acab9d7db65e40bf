import Wireloom.Json.Basic

/-!
# `Json.Shape` — how data is laid out as JSON

The layouts that the library's own types use: a case is its name, or an object with one field from its name
to what it carries; a record is an object with a field for each of its parts, or an array of the parts in
order; a pair is an array of two.
-/

namespace Wireloom.Json

/-- A case of a data type: its name and what it carries. -/
def case? : Json → Option (String × Option Json)
  | string name => some (name, none)
  | object [(name, payload)] => some (name, some payload)
  | _ => none

/-- The name of a case that carries nothing. A field from its name to null is the same case. -/
def bareCase? (j : Json) : Option String :=
  match j.case? with
  | some (name, none) => some name
  | some (name, some null) => some name
  | _ => none

/-- The parts of a record, in the order of their names. An object may have further fields, an array holds
exactly the parts. -/
def record? (names : List String) : Json → Option (List Json)
  | object fields => names.mapM fun name => SortedMap.lookup name fields
  | array items => if items.length = names.length then some items else none
  | _ => none

def pair? : Json → Option (Json × Json)
  | array [a, b] => some (a, b)
  | _ => none

/-- The float nearest to a number. -/
def number? : Json → Option Float
  | float x => some x
  | int (.ofNat n) => some (Float.ofScientific n false 0)
  | int (.negSucc n) => some (-(Float.ofScientific (n + 1) false 0))
  | _ => none

/-- An index: an integer that fits in 32 bits. -/
def index? (j : Json) : Option Nat := j.natBelow? (1 <<< 32)

/-- The items of an array, each read by `read`. -/
def listOf? {α : Type} (read : Json → Option α) (j : Json) : Option (List α) :=
  j.array?.bind fun items => items.mapM read

def ofOption : Option Json → Json
  | some j => j
  | none => null

def ofNat (n : Nat) : Json := int n

end Wireloom.Json
