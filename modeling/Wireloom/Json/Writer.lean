import Wireloom.Json.Basic
import Wireloom.Decimal.Text

/-!
# `Json.Writer` — writing JSON text

The compact text of a value: no blanks, fields in key order, and in strings only the quote, the backslash
and control characters escaped. A float always shows a fraction, so that it reads back as a float.
-/

namespace Wireloom.Json

def hexDigit (n : Nat) : Char := (Nat.toDigits 16 n).headD '0'

def escapeChar (c : Char) : String :=
  if c == '"' then "\\\""
  else if c == '\\' then "\\\\"
  else if c.toNat < 0x20 then
    String.ofList ['\\', 'u', '0', '0', hexDigit (c.toNat / 16), hexDigit (c.toNat % 16)]
  else c.toString

def quote (s : String) : String := "\"" ++ String.join (s.toList.map escapeChar) ++ "\""

/-- The numeral of a float, with a fraction; what is no number is written as null. -/
def floatNumeral (x : Float) : String :=
  if x.isFinite then
    let numeral := Decimal.text x
    if numeral.toList.contains '.' then numeral else numeral ++ ".0"
  else "null"

mutual

def render : Json → String
  | null => "null"
  | bool b => if b then "true" else "false"
  | int n => toString n
  | float x => floatNumeral x
  | string s => quote s
  | array items => "[" ++ ",".intercalate (renderItems items) ++ "]"
  | object fields => "\x7b" ++ ",".intercalate (renderFields fields) ++ "\x7d"

def renderItems : List Json → List String
  | [] => []
  | item :: items => render item :: renderItems items

def renderFields : List (String × Json) → List String
  | [] => []
  | (key, value) :: fields => (quote key ++ ":" ++ render value) :: renderFields fields

end

end Wireloom.Json
