import AtomicStyles.Decimal.Shortest

/-!
# Layouts of decimals

How the digits of a number become text: which magnitudes are written positionally,
whether a whole number keeps a fraction, and how the exponent is signed. A `Layout`
holds these decisions for one kind of output; `Layout.render` carries them out.
-/

namespace AtomicStyles
namespace Decimal

/-- The decisions of one kind of decimal text. The position of the point is counted from the
first digit: the value is `0.d₁d₂… * 10 ^ point`. -/
structure Layout where
  /-- Positional notation is used for points from `leastPoint`… -/
  leastPoint : Int
  /-- …to `greatestPoint`. -/
  greatestPoint : Int
  /-- A whole number is written with `.0`. -/
  keepFraction : Bool
  /-- A nonnegative exponent has a plus sign. -/
  plusSign : Bool
  /-- Which of two shortest decimals at the same distance is written. -/
  tie : Tie

def zeros (n : Nat) : List Char := List.replicate n '0'

/-- The digits with the point after `point` places. -/
def positional (ds : List Char) (point : Int) (keepFraction : Bool) : List Char :=
  if point ≤ 0 then '0' :: '.' :: zeros (-point).toNat ++ ds
  else
    let p := point.toNat
    if ds.length ≤ p then
      ds ++ zeros (p - ds.length) ++ (if keepFraction then ['.', '0'] else [])
    else ds.take p ++ '.' :: ds.drop p

/-- The digits with the point after the first, and an exponent. -/
def scientific (ds : List Char) (point : Int) (plusSign : Bool) : List Char :=
  let e := point - 1
  let mantissa := match ds with
    | [] => []
    | [d] => [d]
    | d :: rest => d :: '.' :: rest
  let sign := if e < 0 then ['-'] else if plusSign then ['+'] else []
  mantissa ++ 'e' :: sign ++ Nat.toDigits 10 e.natAbs

/-- The text of decimal digits, without a sign. -/
def Layout.write (l : Layout) (d : Digits) : List Char :=
  let point := d.point
  if l.leastPoint ≤ point && point ≤ l.greatestPoint then positional d.chars point l.keepFraction
  else scientific d.chars point l.plusSign

/-- The text of the shortest decimal of a nonzero number, with its sign. -/
def Layout.render (l : Layout) (b : Binary) : List Char :=
  (if b.negative then ['-'] else []) ++ l.write (Shortest.ofBinary b l.tie)

end Decimal
end AtomicStyles
