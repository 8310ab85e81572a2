import AtomicStyles.Decimal.Layout
import AtomicStyles.Decimal.Read

/-!
# Decimals without an exponent

A number with a fixed count of places after the point, a half going to the even
neighbour, and the shortest decimal of a number written out in full.
-/

namespace AtomicStyles
namespace Decimal

/-- `magnitude * 10 ^ places` rounded to an integer. -/
def Binary.scaled (b : Binary) (places : Nat) : Nat :=
  let n := b.mantissa * Nat.pow 10 places
  if 0 ≤ b.exponent then n * Nat.pow 2 b.exponent.toNat else roundDiv n (Nat.pow 2 (-b.exponent).toNat)

/-- A finite number with `places` digits after the point; a negative zero keeps its sign. -/
def fixed (b : Binary) (places : Nat) : String :=
  let digits := Nat.toDigits 10 (b.scaled places)
  let digits := zeros (places + 1 - digits.length) ++ digits
  let whole := digits.take (digits.length - places)
  let fraction := digits.drop (digits.length - places)
  String.ofList ((if b.negative then ['-'] else []) ++ whole
    ++ (if places = 0 then [] else '.' :: fraction))

/-- The layout of numbers that are written out in full. -/
def plainLayout : Layout :=
  { leastPoint := -400, greatestPoint := 400, keepFraction := false, plusSign := false, tie := .up }

/-- The shortest decimal of a number, written out in full. -/
def plainText (x : Float) : String :=
  match Binary.ofFloat? x with
  | none => if x.isNaN then "NaN" else if 0 < x then "inf" else "-inf"
  | some b =>
    if b.mantissa = 0 then (if b.negative then "-0" else "0")
    else String.ofList (plainLayout.render b)

end Decimal
end AtomicStyles
