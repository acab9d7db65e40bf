import Wireloom.SortedMap

/-!
# `Json` — configuration values

The values that passes, predicates and devices are written down as. A number is an integer or a binary
float and stays what it was read as; an object lists its fields by increasing key, so that two objects
with the same fields are the same value.

* `Json.get?` reads a field, `Json.ofFields` builds an object (a later field with the same key wins);
* `Json.agrees` is equality of values, with floats compared as numbers.
-/

namespace Wireloom

/-- A configuration value. -/
inductive Json where
  | null
  | bool (b : Bool)
  | int (n : Int)
  | float (x : Float)
  | string (s : String)
  | array (items : List Json)
  | object (fields : List (String × Json))

namespace Json

instance : Inhabited Json := ⟨null⟩

/-- The object with the given fields, listed by key; a later field with the same key wins. -/
def ofFields (fields : List (String × Json)) : Json :=
  object (SortedMap.ofList fields).entries

def get? (key : String) : Json → Option Json
  | object fields => SortedMap.lookup key fields
  | _ => none

def string? : Json → Option String
  | string s => some s
  | _ => none

def bool? : Json → Option Bool
  | bool b => some b
  | _ => none

def array? : Json → Option (List Json)
  | array items => some items
  | _ => none

def nat? : Json → Option Nat
  | int (.ofNat n) => some n
  | _ => none

def natBelow? (bound : Nat) (j : Json) : Option Nat := j.nat?.filter (· < bound)

/-- A value that can be looked up in a list of fields is smaller than the list. -/
theorem sizeOf_lookup_lt {fields : List (String × Json)} {v : Json} {key : String}
    (h : SortedMap.lookup key fields = some v) : sizeOf v < sizeOf fields := by
  induction fields with
  | nil => simp [SortedMap.lookup] at h
  | cons p rest ih =>
    obtain ⟨k, w⟩ := p
    simp only [SortedMap.lookup] at h
    simp only [List.cons.sizeOf_spec, Prod.mk.sizeOf_spec]
    split at h
    · cases h
      omega
    · have := ih h
      omega

/-- A field of a value is smaller than the value. -/
theorem sizeOf_get?_lt {j v : Json} {key : String} (h : j.get? key = some v) :
    sizeOf v < sizeOf j := by
  cases j with
  | object fields =>
    have := sizeOf_lookup_lt h
    simp only [object.sizeOf_spec]
    omega
  | _ => simp [get?] at h

/-- An item of an array is smaller than the array. -/
theorem sizeOf_item_lt {j v : Json} {items : List Json} (h : j.array? = some items)
    (hv : v ∈ items) : sizeOf v < sizeOf j := by
  cases j with
  | array l =>
    cases h
    have := List.sizeOf_lt_of_mem hv
    simp only [array.sizeOf_spec]
    omega
  | _ => simp [array?] at h

/-! ## Equality of values -/

mutual

/-- Whether two values are the same; floats are compared as numbers. -/
def agrees : Json → Json → Bool
  | null, null => true
  | bool a, bool b => a == b
  | int a, int b => a == b
  | float a, float b => a == b
  | string a, string b => a == b
  | array a, array b => agreesItems a b
  | object a, object b => agreesFields a b
  | _, _ => false

def agreesItems : List Json → List Json → Bool
  | [], [] => true
  | a :: as, b :: bs => agrees a b && agreesItems as bs
  | _, _ => false

def agreesFields : List (String × Json) → List (String × Json) → Bool
  | [], [] => true
  | (k, a) :: as, (l, b) :: bs => k == l && agrees a b && agreesFields as bs
  | _, _ => false

end

end Json

end Wireloom
