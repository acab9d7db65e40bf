import Wireloom.Json.Basic

/-!
# `Json.Reader` — reading JSON text

A reader over the characters of a text, leaf by leaf: blanks, numbers, strings, then arrays and objects.
Each reader returns the value it read and the characters after it. The depth of the recursion is bounded
by the length of the text, which `Json.parse?` supplies.

A numeral without fraction and exponent is an integer if it fits in 64 bits, signed below zero and unsigned
above; any other numeral is a float, and `-0` is the negative zero. A numeral beyond the largest float is
refused.
-/

namespace Wireloom.Json

/-- The four characters that may stand between tokens. -/
def isBlank (c : Char) : Bool := c == ' ' || c == '\n' || c == '\t' || c == '\r'

def skipBlanks (cs : List Char) : List Char := cs.dropWhile isBlank

/-- The rest of the text after `word`, if it starts with it. -/
def skipWord (word : String) (cs : List Char) : Option (List Char) :=
  if word.toList.isPrefixOf cs then some (cs.drop word.length) else none

/-! ## Numbers -/

/-- The number that a list of decimal digits spells. -/
def digitsValue (ds : List Char) : Nat := ds.foldl (fun n c => 10 * n + (c.toNat - 48)) 0

/-- A non-empty run of digits and what follows it. -/
def readDigits (cs : List Char) : Option (List Char × List Char) :=
  match cs.takeWhile Char.isDigit with
  | [] => none
  | ds => some (ds, cs.dropWhile Char.isDigit)

/-- The digits before the point: no zero in front of another digit. -/
def readWhole : List Char → Option (List Char × List Char)
  | '0' :: rest => if rest.head?.any Char.isDigit then none else some (['0'], rest)
  | cs => readDigits cs

/-- The digits after the point, none if there is no point. -/
def readFraction : List Char → Option (List Char × List Char)
  | '.' :: rest => readDigits rest
  | cs => some ([], cs)

/-- The exponent, none if it is not written. -/
def readExponent : List Char → Option (Option Int × List Char)
  | c :: rest =>
    if c == 'e' || c == 'E' then
      match rest with
      | '-' :: rest => (readDigits rest).map fun (ds, rest) => (some (-(digitsValue ds : Int)), rest)
      | '+' :: rest => (readDigits rest).map fun (ds, rest) => (some (digitsValue ds : Int), rest)
      | rest => (readDigits rest).map fun (ds, rest) => (some (digitsValue ds : Int), rest)
    else some (none, c :: rest)
  | [] => some (none, [])

/-- The float nearest to `± digits · 10^exponent`, none beyond the largest float. Far outside the range of
floats the power of ten is not formed. -/
def nearestFloat? (negative : Bool) (digits : Nat) (exponent : Int) : Option Float :=
  let magnitude : Option Float :=
    if digits = 0 then some 0.0
    else
      -- `10^(n-1) ≤ digits < 10^n`
      let n : Int := (Nat.toDigits 10 digits).length
      if 400 < n + exponent then none
      else if n + exponent < -400 then some 0.0
      else
        let x := Float.ofScientific digits (exponent < 0) exponent.natAbs
        if x.isFinite then some x else none
  magnitude.map fun x => if negative then -x else x

/-- The value of a numeral given by its parts. -/
def numberOf (negative : Bool) (whole fraction : List Char) (exponent : Option Int) : Option Json :=
  let asFloat := (nearestFloat? negative (digitsValue (whole ++ fraction))
    (exponent.getD 0 - fraction.length)).map float
  match fraction, exponent with
  | [], none =>
    let n := digitsValue whole
    if negative then
      if 0 < n ∧ n ≤ 1 <<< 63 then some (int (-(n : Int))) else asFloat
    else
      if n < 1 <<< 64 then some (int n) else asFloat
  | _, _ => asFloat

def readNumber (cs : List Char) : Option (Json × List Char) := do
  let (negative, cs) := match cs with
    | '-' :: rest => (true, rest)
    | cs => (false, cs)
  let (whole, cs) ← readWhole cs
  let (fraction, cs) ← readFraction cs
  let (exponent, cs) ← readExponent cs
  return (← numberOf negative whole fraction exponent, cs)

/-! ## Strings -/

def hexValue (c : Char) : Option Nat :=
  if '0' ≤ c ∧ c ≤ '9' then some (c.toNat - 48)
  else if 'a' ≤ c ∧ c ≤ 'f' then some (c.toNat - 87)
  else if 'A' ≤ c ∧ c ≤ 'F' then some (c.toNat - 55)
  else none

def readHex4 : List Char → Option (Nat × List Char)
  | a :: b :: c :: d :: rest => do
    return (((← hexValue a) * 16 + (← hexValue b)) * 256 + ((← hexValue c) * 16 + (← hexValue d)), rest)
  | _ => none

/-- The character of a `\u` escape. One outside the basic plane is written as a pair of units, a high one
and then a low one; a unit of a pair that stands alone is refused. -/
def readUnit (cs : List Char) : Option (Char × List Char) := do
  let (u, cs) ← readHex4 cs
  if 0xD800 ≤ u ∧ u < 0xDC00 then
    match cs with
    | '\\' :: 'u' :: cs =>
      let (l, cs) ← readHex4 cs
      if 0xDC00 ≤ l ∧ l < 0xE000 then
        return (Char.ofNat (0x10000 + (u - 0xD800) * 0x400 + (l - 0xDC00)), cs)
      else none
    | _ => none
  else if 0xDC00 ≤ u ∧ u < 0xE000 then none
  else return (Char.ofNat u, cs)

/-- The character of an escape, after its backslash. -/
def readEscape : List Char → Option (Char × List Char)
  | '"' :: cs => some ('"', cs)
  | '\\' :: cs => some ('\\', cs)
  | '/' :: cs => some ('/', cs)
  | 'b' :: cs => some ('\x08', cs)
  | 'f' :: cs => some ('\x0c', cs)
  | 'n' :: cs => some ('\n', cs)
  | 'r' :: cs => some ('\r', cs)
  | 't' :: cs => some ('\t', cs)
  | 'u' :: cs => readUnit cs
  | _ => none

/-- The characters of a string up to its closing quote. -/
def readChars : Nat → List Char → Option (List Char × List Char)
  | 0, _ => none
  | _, [] => none
  | _, '"' :: cs => some ([], cs)
  | fuel + 1, '\\' :: cs => do
    let (c, cs) ← readEscape cs
    let (rest, cs) ← readChars fuel cs
    return (c :: rest, cs)
  | fuel + 1, c :: cs =>
    if c.toNat < 0x20 then none
    else do
      let (rest, cs) ← readChars fuel cs
      return (c :: rest, cs)

/-- A string, after its opening quote. -/
def readString (cs : List Char) : Option (String × List Char) :=
  (readChars (cs.length + 1) cs).map fun (s, rest) => (String.ofList s, rest)

/-! ## Values -/

mutual

def readValue : Nat → List Char → Option (Json × List Char)
  | 0, _ => none
  | fuel + 1, cs =>
    match skipBlanks cs with
    | [] => none
    | '"' :: cs => (readString cs).map fun (s, rest) => (string s, rest)
    | '[' :: cs =>
      match skipBlanks cs with
      | ']' :: rest => some (array [], rest)
      | cs => (readItems fuel cs).map fun (items, rest) => (array items, rest)
    | '\x7b' :: cs =>
      match skipBlanks cs with
      | '\x7d' :: rest => some (object [], rest)
      | cs => (readFields fuel cs).map fun (fields, rest) => (ofFields fields, rest)
    | 'n' :: cs => (skipWord "ull" cs).map fun rest => (null, rest)
    | 't' :: cs => (skipWord "rue" cs).map fun rest => (bool true, rest)
    | 'f' :: cs => (skipWord "alse" cs).map fun rest => (bool false, rest)
    | cs => readNumber cs

/-- The items of an array up to its closing bracket. -/
def readItems : Nat → List Char → Option (List Json × List Char)
  | 0, _ => none
  | fuel + 1, cs => do
    let (item, cs) ← readValue fuel cs
    match skipBlanks cs with
    | ',' :: cs =>
      let (items, cs) ← readItems fuel cs
      return (item :: items, cs)
    | ']' :: cs => return ([item], cs)
    | _ => none

/-- The fields of an object up to its closing brace. -/
def readFields : Nat → List Char → Option (List (String × Json) × List Char)
  | 0, _ => none
  | fuel + 1, cs =>
    match skipBlanks cs with
    | '"' :: cs => do
      let (key, cs) ← readString cs
      match skipBlanks cs with
      | ':' :: cs =>
        let (value, cs) ← readValue fuel cs
        match skipBlanks cs with
        | ',' :: cs =>
          let (fields, cs) ← readFields fuel cs
          return ((key, value) :: fields, cs)
        | '\x7d' :: cs => return ([(key, value)], cs)
        | _ => none
      | _ => none
    | _ => none

end

/-- The value that a text spells, if it is one value and nothing else. -/
def parse? (text : String) : Option Json :=
  match readValue (2 * text.length + 2) text.toList with
  | some (value, rest) => if (skipBlanks rest).isEmpty then some value else none
  | none => none

end Wireloom.Json
