/-!
# Reading decimals

The binary64 number nearest to a decimal, a tie going to the even neighbour. All steps
before the last are taken in natural numbers, so that there is one rounding only.

## Main definitions

* `Decimal.roundDiv` — a quotient rounded to an integer.
* `Decimal.ratioBits` — the bits of the number nearest to a quotient.
* `Decimal.nearest` — the number nearest to a decimal.
-/

namespace AtomicStyles
namespace Decimal

/-- `n / d` rounded to the nearest integer, a half to the even one. -/
def roundDiv (n d : Nat) : Nat :=
  let q := n / d
  let r := n % d
  if d < 2 * r || (2 * r == d && q % 2 == 1) then q + 1 else q

/-- `n / d` in units of `2 ^ e`, as a quotient of natural numbers. -/
def inUnits (n d : Nat) (e : Int) : Nat × Nat :=
  if 0 ≤ e then (n, d * Nat.pow 2 e.toNat) else (n * Nat.pow 2 (-e).toNat, d)

/-- The exponent of the unit in the last place of `n / d`: the least one, but not below that of
the smallest numbers, for which the quotient in units is below `2 ^ 53`. -/
def unitExponent (n d : Nat) : Int :=
  let e := max ((n.log2 : Int) - d.log2 - 53) (-1074)
  let (n, d) := inUnits n d e
  if Nat.pow 2 53 ≤ n / d then e + 1 else e

/-- The bits of the binary64 number nearest to `n / d`, for positive `n` and `d`. -/
def ratioBits (n d : Nat) : Nat :=
  let e := unitExponent n d
  let (n, d) := inUnits n d e
  min ((e + 1074).toNat * Nat.pow 2 52 + roundDiv n d) (2047 * Nat.pow 2 52)

/-- The number nearest to `mantissa * 10 ^ exponent`. Exponents so large or so small that the
result is infinite or zero whatever the digits are cut off first. -/
def nearest (mantissa : Nat) (exponent : Int) : Float :=
  if mantissa = 0 then 0.0
  else
    let size := (Nat.toDigits 10 mantissa).length
    if 400 < exponent + size then 1.0 / 0.0
    else if exponent + size < -400 then 0.0
    else
      let bits := if exponent < 0 then ratioBits mantissa (Nat.pow 10 exponent.natAbs)
        else ratioBits (mantissa * Nat.pow 10 exponent.natAbs) 1
      Float.ofBits bits.toUInt64

/-- The value of a digit in bases up to 36. -/
def digitValue? (c : Char) : Option Nat :=
  if '0' ≤ c && c ≤ '9' then some (c.toNat - 48)
  else if 'a' ≤ c && c ≤ 'z' then some (c.toNat - 87)
  else if 'A' ≤ c && c ≤ 'Z' then some (c.toNat - 55)
  else none

def isDigitOf (base : Nat) (c : Char) : Bool := (digitValue? c).any (· < base)

/-- The number the digits of a base spell, other characters being skipped. -/
def ofDigits (base : Nat) (cs : List Char) : Nat :=
  cs.foldl (fun n c => match digitValue? c with | some d => n * base + d | none => n) 0

end Decimal
end AtomicStyles
