/-!
# Shortest decimal digits

A finite double is `mantissa · 2 ^ exponent`. The reals that round to it form an interval around it,
whose ends belong to it exactly if the mantissa is even. `Binary.shortest` gives the decimal number
`digits · 10 ^ scale` with the fewest digits inside that interval, and of several with that many digits
the one nearest to the double; a `Tie` says which of two equally near ones.

The search tries `1, 2, …, 17` digits. For each it looks at the two neighbours of the value on the grid
of that many digits, in exact arithmetic on fractions: if any point of a grid lies in the interval, one
of these two does.
-/

namespace Monomorph.Decimal

/-- A positive finite double `mantissa · 2 ^ exponent`. It is `narrowBelow` if it is the least of its
binade, so that its lower neighbour is only half as far away as its upper one. -/
structure Binary where
  mantissa : Nat
  exponent : Int
  narrowBelow : Bool
  deriving Repr

/-- A decimal number `digits · 10 ^ scale`. -/
structure Numeral where
  digits : Nat
  scale : Int
  deriving DecidableEq, Repr

/-- Which of two neighbouring decimals equally near to a double is taken. -/
inductive Tie where
  /-- The greater one. -/
  | up
  /-- The one with an even last digit. -/
  | even
  deriving DecidableEq, Inhabited, Repr

/-- The digits taken of `below` and `below + 1` in a tie. -/
def Tie.choose (below : Nat) : Tie → Nat
  | up => below + 1
  | even => if below % 2 = 0 then below else below + 1

/-- What the 64 bits of a double denote, its sign aside. -/
inductive Magnitude
  | zero
  | finite (value : Binary)
  | infinite
  | nan

/-- Split a double into sign and magnitude. -/
def decode (x : Float) : Bool × Magnitude :=
  let bits : Nat := x.toBits.toNat
  let fraction : Nat := bits % Nat.pow 2 52
  let biased : Nat := bits / Nat.pow 2 52 % Nat.pow 2 11
  let negative := bits / Nat.pow 2 63 == 1
  let magnitude : Magnitude :=
    if biased = 2047 then if fraction = 0 then .infinite else .nan
    else if biased = 0 then
      if fraction = 0 then .zero else .finite ⟨fraction, -1074, false⟩
    else .finite ⟨Nat.pow 2 52 + fraction, (biased : Int) - 1075, fraction = 0 && biased ≠ 1⟩
  (negative, magnitude)

/-- Number of decimal digits of `n`, at least one. -/
def digitCount (n : Nat) : Nat := (Nat.toDigits 10 n).length

/-- The exponent `e` with `10 ^ e ≤ num / den < 10 ^ (e + 1)`, for positive `num` and `den`. -/
def leadingExponent (num den : Nat) : Int :=
  if den ≤ num then (digitCount (num / den) : Int) - 1
  else
    let e := digitCount (den / num)
    if num * Nat.pow 10 (e - 1) = den then 1 - (e : Int) else -(e : Int)

/-- `num · 10 ^ e / den` as a fraction. -/
def scaled (num den : Nat) (e : Int) : Nat × Nat :=
  if 0 ≤ e then (num * Nat.pow 10 e.toNat, den) else (num, den * Nat.pow 10 (-e).toNat)

/-- The same number with no trailing zero among its digits, of which there are fewer than `fuel`. -/
def Numeral.trim : (fuel : Nat) → Numeral → Numeral
  | 0, d => d
  | fuel + 1, d =>
    if d.digits % 10 = 0 && d.digits ≠ 0 then trim fuel ⟨d.digits / 10, d.scale + 1⟩ else d

def gap (a b : Nat) : Nat := if a ≤ b then b - a else a - b

namespace Binary

/-- The ends and the middle of the interval, as numerators over four times the unit `2 ^ exponent`. -/
def bounds (b : Binary) : Nat × Nat × Nat :=
  let middle := 4 * b.mantissa
  (if b.narrowBelow then middle - 1 else middle - 2, middle, middle + 2)

/-- The grid point with `count` digits that rounds to the double and is nearest to it, if any does. -/
def onGrid? (b : Binary) (tie : Tie) (count : Nat) : Option Numeral :=
  let (low, middle, high) := b.bounds
  let unit := b.exponent - 2
  let num := if 0 ≤ unit then Nat.pow 2 unit.toNat else 1
  let den := if 0 ≤ unit then 1 else Nat.pow 2 (-unit).toNat
  let scale := leadingExponent (middle * num) den - (count : Int) + 1
  let (lowNum, under) := scaled (low * num) den (-scale)
  let (midNum, _) := scaled (middle * num) den (-scale)
  let (highNum, _) := scaled (high * num) den (-scale)
  let inside (d : Nat) : Bool :=
    if b.mantissa % 2 = 0 then lowNum ≤ d * under && d * under ≤ highNum
    else lowNum < d * under && d * under < highNum
  let below := midNum / under
  let above := below + 1
  match inside below, inside above with
  | true, true =>
    let toBelow := gap (below * under) midNum
    let toAbove := gap (above * under) midNum
    some ⟨if toBelow < toAbove then below else if toAbove < toBelow then above else tie.choose below,
      scale⟩
  | true, false => some ⟨below, scale⟩
  | false, true => some ⟨above, scale⟩
  | false, false => none

/-- The shortest decimal that rounds to the double. Seventeen digits always suffice. -/
def shortest (b : Binary) (tie : Tie) : Numeral :=
  match (List.range 17).findSome? fun n => b.onGrid? tie (n + 1) with
  | some d => d.trim 18
  | none => ⟨0, 0⟩

end Binary
end Monomorph.Decimal
