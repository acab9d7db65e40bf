import Wireloom.Text.Hidden

/-!
# `Text.quoted` — names in quotes

A name in quotes on one line: quotes, backslashes and hidden characters are written as escapes.
-/

namespace Wireloom.Text

def numbered (c : Char) : String := "\\u\x7b" ++ String.ofList (Nat.toDigits 16 c.toNat) ++ "\x7d"

def escaped (c : Char) : String :=
  if c = '"' then "\\\""
  else if c = '\\' then "\\\\"
  else if c = '\n' then "\\n"
  else if c = '\r' then "\\r"
  else if c = '\t' then "\\t"
  else if c.toNat = 0 then "\\0"
  else if isHidden c then numbered c
  else c.toString

def quoted (s : String) : String := "\"" ++ String.join (s.toList.map escaped) ++ "\""

end Wireloom.Text
