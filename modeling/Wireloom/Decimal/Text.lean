import Wireloom.Decimal.Shortest

/-!
# `Decimal.Text` — numerals

How a float is written: the fewest digits that read back, always positionally, with a fraction only where
there is one. Zero keeps its sign, and the three values that are no numbers have names of their own.
-/

namespace Wireloom.Decimal

/-- The positional numeral of a decimal: `⟨15, -1⟩` is `1.5`, `⟨15, 1⟩` is `150`, `⟨15, -3⟩` is `0.015`. -/
def positional (d : Decimal) : String :=
  let figures := (Nat.toDigits 10 d.digits)
  match d.exponent with
  | .ofNat e => String.ofList (figures ++ List.replicate e '0')
  | .negSucc e =>
    let places := e + 1
    if places < figures.length then
      let whole := figures.take (figures.length - places)
      String.ofList (whole ++ '.' :: figures.drop (figures.length - places))
    else
      String.ofList ('0' :: '.' :: List.replicate (places - figures.length) '0' ++ figures)

def text (x : Float) : String :=
  let bits := x.toBits.toNat
  let exponentField := (bits >>> 52) % (1 <<< 11)
  let fraction := bits % (1 <<< 52)
  let sign := if bits >>> 63 = 1 then "-" else ""
  if exponentField = (1 <<< 11) - 1 then
    if fraction = 0 then sign ++ "inf" else "NaN"
  else if exponentField = 0 ∧ fraction = 0 then sign ++ "0"
  else sign ++ (Binary.ofFields exponentField fraction).shortest.positional

end Wireloom.Decimal
