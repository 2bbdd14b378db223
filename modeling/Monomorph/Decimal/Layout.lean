import Monomorph.Decimal.Shortest

/-!
# Decimal layouts

How the shortest digits of a double are set out: which of two equally near decimals is written, which
magnitudes positionally and which with an exponent. Two layouts are in use, one for listings of code and static
values and one for the encoded module.
-/

namespace Monomorph.Decimal

/-- The decisions of a layout. Exponents from `lowest` up to, not including, `beyond` are positional. -/
structure Layout where
  tie : Tie
  lowest : Int
  beyond : Int
  /-- What stands between the exponent mark and the digits of a positive exponent. -/
  plus : String
  nan : String
  infinity : String
  negativeInfinity : String

/-- Listings: `1.0`, `0.0001`, `1e-5`, `1e16`, `NaN`, `inf`. -/
def Layout.listing : Layout := ⟨.up, -4, 16, "", "NaN", "inf", "-inf"⟩

/-- Encoded modules: `1.0`, `0.00001`, `1e-6`, `1e+16`; what is not finite has no number. -/
def Layout.encoded : Layout := ⟨.even, -5, 16, "+", "null", "null", "null"⟩

/-- Set out a positive decimal whose digits have no trailing zero. -/
def Layout.decimal (l : Layout) (d : Numeral) : String :=
  let digits := toString d.digits
  let count := digits.length
  let lead := d.scale + (count : Int) - 1
  if l.lowest ≤ lead && lead < l.beyond then
    if 0 ≤ d.scale then digits ++ "".pushn '0' d.scale.toNat ++ ".0"
    else if 0 ≤ lead then
      (digits.take (lead.toNat + 1)).toString ++ "." ++ (digits.drop (lead.toNat + 1)).toString
    else "0." ++ "".pushn '0' (-lead - 1).toNat ++ digits
  else
    let fraction := if count = 1 then "" else "." ++ (digits.drop 1).toString
    let sign := if lead < 0 then "-" else l.plus
    (digits.take 1).toString ++ fraction ++ "e" ++ sign ++ toString lead.natAbs

/-- Write a double with the fewest digits that read back. -/
def Layout.text (l : Layout) (x : Float) : String :=
  match decode x with
  | (_, .nan) => l.nan
  | (negative, .infinite) => if negative then l.negativeInfinity else l.infinity
  | (negative, .zero) => if negative then "-0.0" else "0.0"
  | (negative, .finite b) => (if negative then "-" else "") ++ l.decimal (b.shortest l.tie)

end Monomorph.Decimal
