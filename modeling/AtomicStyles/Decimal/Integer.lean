import AtomicStyles.Decimal.Shortest

/-!
# Binary64 numbers as integers

Whole parts, remainders and the 32-bit words of numbers, by exact integer arithmetic.

## Main definitions

* `Decimal.truncate` — a number without its fraction.
* `Decimal.remainder` — what is left of a number after whole multiples of another.
* `Decimal.word` — the 32-bit word of a number.
* `Decimal.toNat` — a number as a count.
-/

namespace AtomicStyles
namespace Decimal

def truncate (x : Float) : Float := if x < 0 then x.ceil else x.floor

/-- The whole part of a finite number. -/
def Binary.whole (b : Binary) : Int :=
  let magnitude : Nat :=
    if 0 ≤ b.exponent then b.mantissa * Nat.pow 2 b.exponent.toNat
    else b.mantissa / Nat.pow 2 (-b.exponent).toNat
  if b.negative then -magnitude else magnitude

/-- The remainder of a division towards zero; it has the sign of `x`. -/
def remainder (x y : Float) : Float :=
  match Binary.ofFloat? x, Binary.ofFloat? y with
  | some a, some b =>
    if b.mantissa = 0 then 0.0 / 0.0
    else
      let e := min a.exponent b.exponent
      let m := a.mantissa * Nat.pow 2 (a.exponent - e).toNat % (b.mantissa * Nat.pow 2 (b.exponent - e).toNat)
      let r := Float.scaleB (Float.ofNat m) e
      if a.negative then -r else r
  | some _, none => if y.isNaN then y else x
  | none, _ => 0.0 / 0.0

/-- The word of a number: its whole part modulo `2 ^ 32`, zero for what is not finite. -/
def word (x : Float) : UInt32 :=
  match Binary.ofFloat? x with
  | some b => (b.whole.emod 0x100000000).toNat.toUInt32
  | none => 0

/-- The number of a word that is read with a sign. -/
def ofSignedWord (w : UInt32) : Float :=
  if w < 0x80000000 then w.toNat.toFloat else -(0x100000000 - w.toNat).toFloat

/-- A number as a count: its whole part, zero for what is negative or no number, and at most
`2 ^ 64 - 1`. -/
def toNat (x : Float) : Nat :=
  match Binary.ofFloat? x with
  | some b => min b.whole.toNat (Nat.pow 2 64 - 1)
  | none => if 0 < x then Nat.pow 2 64 - 1 else 0

end Decimal
end AtomicStyles
