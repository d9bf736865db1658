import ConfigOverlay.Number.Binary64

/-!
# The shortest decimal text of a binary64 number

Every number is the nearest one to all reals of an interval around it. Among the decimals in that
interval this module picks one with the fewest digits and, among those, the one nearest to the
number; of two equally near ones the even coefficient.

The search runs over the decimal grids of 1, 2, … 17 significant digits. If a point of a grid lies
in the interval then so does one of the two grid points around the number itself, so looking at
those two decides each grid.
-/

namespace ConfigOverlay

/-- The decimal `coefficient * 10 ^ exponent`. -/
structure Decimal where
  coefficient : Nat
  exponent : Int
deriving DecidableEq, Repr

namespace Decimal

/-- The same decimal with a coefficient that does not end in zero. The fuel bounds the number of
zeros to drop. -/
def normalize : Nat → Decimal → Decimal
  | 0, d => d
  | fuel + 1, d =>
    if d.coefficient ≠ 0 ∧ d.coefficient % 10 = 0 then
      normalize fuel ⟨d.coefficient / 10, d.exponent + 1⟩
    else d

/-- `10 ^ e ≤ num / den`. -/
def powTenLe (num den : Nat) (e : Int) : Bool :=
  let (a, b) := scaleDown 10 num den e
  b ≤ a

/-- The exponent of the leading decimal digit of a positive quotient. The estimate from the binary
logarithm is at most one off. -/
def leadingExponent (num den : Nat) : Int :=
  let estimate := ((Nat.log2 num : Int) - Nat.log2 den) * 30103 / 100000
  if powTenLe num den (estimate + 1) then estimate + 1
  else if powTenLe num den estimate then estimate
  else estimate - 1

end Decimal

namespace Binary64

/-- The interval of reals that round to a positive number, in quarters of its last place: the lower
end, the number and the upper end. Below a power of two the numbers lie twice as close. -/
def quarters (x : Binary64) : Nat × Nat × Nat :=
  let m := x.significand
  let below := if x.fraction = 0 ∧ 1 < x.field then 1 else 2
  (4 * m - below, 4 * m, 4 * m + 2)

/-- The grid point of spacing `10 ^ g` that stands for `x`, if one rounds to `x`. The ends of the
interval round to `x` exactly when its significand is even. -/
def onGrid? (x : Binary64) (g : Int) : Option Nat :=
  let (low, mid, high) := x.quarters
  let unit := scaleDown 2 1 1 (2 - x.exponent)
  let (n, d) := scaleDown 10 unit.1 unit.2 g
  let closed := x.significand % 2 == 0
  let inside := fun c =>
    let p := c * d
    if closed then low * n ≤ p && p ≤ high * n else low * n < p && p < high * n
  let c := mid * n / d
  match inside c && c != 0, inside (c + 1) with
  | true, true =>
    let twice := 2 * (mid * n - c * d)
    if twice < d ∨ (twice = d ∧ c % 2 = 0) then some c else some (c + 1)
  | true, false => some c
  | false, true => some (c + 1)
  | false, false => none

/-- The shortest decimal that reads back as the magnitude of `x`. Seventeen digits always do. -/
def shortest (x : Binary64) : Decimal :=
  if x.isZero then ⟨0, 0⟩ else
    let (num, den) := x.ratio
    let lead := Decimal.leadingExponent num den
    let grid? := fun k : Nat =>
      let g := lead - k
      (x.onGrid? g).map fun c => (⟨c, g⟩ : Decimal)
    (((List.range 17).findSome? grid?).getD ⟨0, 0⟩).normalize 20

end Binary64

end ConfigOverlay
