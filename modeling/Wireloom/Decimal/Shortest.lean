/-!
# `Decimal.Shortest` — the fewest digits that read back

A finite binary number is a point `m · 2^q`; every real that lies nearer to it than to its neighbours
reads back as it. `shortest` picks, among the decimals `d · 10^k` of that interval, one with the largest
`k`, hence with the fewest digits, and of the two grid points around the number the nearer one; when both
are equally near, the larger.

All arithmetic is exact: numbers are compared as fractions of naturals.
-/

namespace Wireloom

/-- A decimal `digits · 10^exponent`. -/
structure Decimal where
  digits : Nat
  exponent : Int
  deriving DecidableEq

namespace Decimal

/-- A positive binary number `mantissa · 2^exponent`; `narrow` says that the gap below it is half the gap
above it, which is so at a power of two. -/
structure Binary where
  mantissa : Nat
  exponent : Int
  narrow : Bool

/-- The binary number with the given exponent field and fraction field of a 64-bit float. -/
def Binary.ofFields (exponentField fraction : Nat) : Binary :=
  if exponentField = 0 then ⟨fraction, -1074, false⟩
  else ⟨(1 <<< 52) + fraction, (exponentField : Int) - 1075, fraction = 0 && 1 < exponentField⟩

/-- The fraction `a / b`, as a pair, of `n · 2^q`. -/
def scaledByTwo (n : Nat) (q : Int) : Nat × Nat :=
  match q with
  | .ofNat e => (n <<< e, 1)
  | .negSucc e => (n, 1 <<< (e + 1))

/-- The fraction `a / b`, as a pair, of `n · 10^k`. -/
def scaledByTen (n : Nat) (k : Int) : Nat × Nat :=
  match k with
  | .ofNat e => (n * Nat.pow 10 e, 1)
  | .negSucc e => (n, Nat.pow 10 (e + 1))

def compareFractions (x y : Nat × Nat) : Ordering := compare (x.1 * y.2) (y.1 * x.2)

/-- Whether a decimal reads back as `x`. The ends of the interval, halfway to the neighbours, belong to it
exactly when the mantissa is even. -/
def Binary.readsBack (x : Binary) (d : Decimal) : Bool :=
  let value := scaledByTen d.digits d.exponent
  let low := scaledByTwo (4 * x.mantissa - (if x.narrow then 1 else 2)) (x.exponent - 2)
  let high := scaledByTwo (4 * x.mantissa + 2) (x.exponent - 2)
  if x.mantissa % 2 = 0 then
    compareFractions low value != .gt && compareFractions value high != .gt
  else
    compareFractions low value == .lt && compareFractions value high == .lt

/-- The grid point of `10^k` at or below `x`. -/
def Binary.gridFloor (x : Binary) (k : Int) : Nat :=
  let (a, b) := scaledByTwo x.mantissa x.exponent
  let (c, d) := scaledByTen 1 k
  (a * d) / (b * c)

/-- Of the two points of the grid `10^k` around `x`, one that reads back: the nearer if both do, the upper
one at equal distance. -/
def Binary.onGrid? (x : Binary) (k : Int) : Option Decimal :=
  let below : Decimal := ⟨x.gridFloor k, k⟩
  let above : Decimal := ⟨below.digits + 1, k⟩
  match x.readsBack below, x.readsBack above with
  | true, true =>
    -- `below + above` against twice the number
    let middle := scaledByTen (below.digits + above.digits) k
    let twice := scaledByTwo (2 * x.mantissa) x.exponent
    if compareFractions twice middle == .lt then some below else some above
  | true, false => some below
  | false, true => some above
  | false, false => none

/-- Searches the grids `10^k, 10^(k-1), …` for a decimal that reads back. -/
def Binary.search (x : Binary) : Nat → Int → Option Decimal
  | 0, _ => none
  | fuel + 1, k => (x.onGrid? k).or (x.search fuel (k - 1))

/-- An exponent with `x ≤ 10^k`: the mantissa is below `2^53`, and a factor of two is less than a third of
a factor of ten above one and more than a quarter below it. -/
def Binary.upperExponent (x : Binary) : Int :=
  let bits := x.exponent + 53
  if 0 ≤ bits then bits / 3 + 1 else bits / 4 + 1

/-- The decimal with the fewest digits that reads back as `x`, the nearest of them. The search ends on the
grid that holds `x` itself. -/
def Binary.shortest (x : Binary) : Decimal :=
  let finest := min x.exponent 0
  (x.search ((x.upperExponent - finest).toNat + 1) x.upperExponent).getD ⟨x.gridFloor finest, finest⟩

end Decimal

end Wireloom
