import Monomorph.Decimal.Shortest

/-!
# The remainder of two floats

The remainder of a truncating division, computed exactly: both magnitudes are brought to one exponent,
where the remainder is that of two natural numbers. It is smaller than both and needs no rounding.
-/

namespace Monomorph.Decimal

/-- `m · 2 ^ e` for a magnitude that a double can hold. -/
def ofParts (negative : Bool) (m : Nat) (e : Int) : Float :=
  let x := (Float.ofNat m).scaleB e
  if negative then -x else x

/-- The remainder of `x` by `y`, with the sign of `x`. It is no number if `x` is infinite or `y` zero. -/
def remainder (x y : Float) : Float :=
  match decode x, decode y with
  | (_, .nan), _ | _, (_, .nan) | (_, .infinite), _ | _, (_, .zero) => 0.0 / 0.0
  | (_, .zero), _ | _, (_, .infinite) => x
  | (negative, .finite a), (_, .finite b) =>
    let e := min a.exponent b.exponent
    let m := a.mantissa * Nat.pow 2 (a.exponent - e).toNat
    let n := b.mantissa * Nat.pow 2 (b.exponent - e).toNat
    ofParts negative (m % n) e

end Monomorph.Decimal
