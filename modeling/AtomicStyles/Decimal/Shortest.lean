/-!
# The shortest decimal of a binary64 number

A finite nonzero number is `m * 2 ^ q` for natural `m`. The reals that round to it
form an interval, whose ends belong to it exactly when `m` is even. Its shortest
decimal is the one with the fewest digits in that interval and, among those, the
nearest to the number. Which of two at the same distance is taken is a `Tie` rule.

Every comparison is between natural numbers, so nothing here depends on rounding.

## Main definitions

* `Decimal.Binary.ofFloat?` — sign, mantissa and exponent of a finite number.
* `Decimal.Shortest.ofBinary` — digits and scale of the shortest decimal.
-/

namespace AtomicStyles
namespace Decimal

/-- The finite number `± mantissa * 2 ^ exponent`. -/
structure Binary where
  negative : Bool
  mantissa : Nat
  exponent : Int
  /-- Whether the next number towards zero is only half as far away as the one above. -/
  boundary : Bool
deriving Repr, DecidableEq

/-- The parts of a finite number; `none` for the infinities and the NaNs. -/
def Binary.ofFloat? (x : Float) : Option Binary :=
  let bits := x.toBits.toNat
  let negative := Nat.pow 2 63 ≤ bits
  let biased : Nat := bits / Nat.pow 2 52 % 2048
  let fraction := bits % Nat.pow 2 52
  if biased = 2047 then none
  else if biased = 0 then some ⟨negative, fraction, -1074, false⟩
  else some ⟨negative, fraction + Nat.pow 2 52, (biased : Int) - 1075, fraction = 0 && biased ≠ 1⟩

/-- The integer a number is, if it is one. -/
def Binary.toInt? (b : Binary) : Option Int :=
  let magnitude : Option Nat :=
    if 0 ≤ b.exponent then some (b.mantissa * Nat.pow 2 b.exponent.toNat)
    else
      let unit := Nat.pow 2 (-b.exponent).toNat
      if b.mantissa % unit = 0 then some (b.mantissa / unit) else none
  magnitude.map fun n => if b.negative then -(n : Int) else n

/-- The decimal `digits * 10 ^ scale`, the sign apart. -/
structure Digits where
  digits : Nat
  scale : Int
deriving Repr, DecidableEq

/-- Which of two decimals at the same distance is taken. -/
inductive Tie where
  | up
  | toEven
deriving Repr, DecidableEq

/-- Whether a tie between `floor` and its successor goes to `floor`. -/
def Tie.goesDown (floor : Nat) : Tie → Bool
  | .up => false
  | .toEven => floor % 2 = 0

namespace Shortest

/-- A number and the ends of the interval of reals that round to it, over one denominator:
the value is `mid / den`, the ends are `low / den` and `high / den`. -/
structure Window where
  low : Nat
  mid : Nat
  high : Nat
  den : Nat
  closed : Bool

/-- The window of `m * 2 ^ q` on the grid of multiples of `10 ^ s`. -/
def Window.scaled (b : Binary) (s : Int) : Window :=
  let up := if 0 ≤ b.exponent then Nat.pow 2 b.exponent.toNat else 1
  let down := if 0 ≤ b.exponent then 1 else Nat.pow 2 (-b.exponent).toNat
  let num := if s < 0 then Nat.pow 10 (-s).toNat else 1
  let den := if s < 0 then 1 else Nat.pow 10 s.toNat
  let unit := up * num
  let below := if b.boundary then unit else 2 * unit
  { low := 4 * b.mantissa * unit - below, mid := 4 * b.mantissa * unit
    high := 4 * b.mantissa * unit + 2 * unit, den := 4 * down * den
    closed := b.mantissa % 2 = 0 }

/-- Whether the integer `n` lies in the window. -/
def Window.holds (w : Window) (n : Nat) : Bool :=
  if w.closed then w.low ≤ n * w.den && n * w.den ≤ w.high
  else w.low < n * w.den && n * w.den < w.high

/-- The integer of the window nearest to its middle, if there is one. -/
def Window.nearest? (w : Window) (tie : Tie) : Option Nat :=
  let floor := w.mid / w.den
  let rest := 2 * (w.mid % w.den)
  let preferFloor := rest < w.den || (rest = w.den && tie.goesDown floor)
  let first := if preferFloor then floor else floor + 1
  let second := if preferFloor then floor + 1 else floor
  if 0 < first && w.holds first then some first
  else if 0 < second && w.holds second then some second
  else none

/-- The coarsest of the grids `10 ^ s`, `10 ^ (s - 1)`, … that has a point in the window;
`fuel` bounds how many are tried. -/
def search (b : Binary) (tie : Tie) (s : Int) : Nat → Digits
  | 0 => ⟨b.mantissa, 0⟩
  | fuel + 1 =>
    match (Window.scaled b s).nearest? tie with
    | some n => ⟨n, s⟩
    | none => search b tie (s - 1) fuel

/-- Removes the zeros at the end of the digits. -/
def strip (d : Digits) : Nat → Digits
  | 0 => d
  | fuel + 1 =>
    if d.digits ≠ 0 && d.digits % 10 = 0 then strip ⟨d.digits / 10, d.scale + 1⟩ fuel else d

/-- The number of decimal digits of `n`, at most `fuel`. -/
def countDigits (n : Nat) : Nat → Nat
  | 0 => 0
  | fuel + 1 => if n = 0 then 0 else countDigits (n / 10) fuel + 1

/-- A scale whose grid is certainly coarser than the number. -/
def startScale (b : Binary) : Int :=
  if 0 ≤ b.exponent then countDigits (b.mantissa * Nat.pow 2 b.exponent.toNat) 400
  else
    let p := (-b.exponent).toNat
    (countDigits (b.mantissa * Nat.pow 10 (p / 3 + 1) / Nat.pow 2 p) 800 : Int) - (p / 3 + 1 : Nat) + 1

/-- The shortest decimal of a number. -/
def ofBinary (b : Binary) (tie : Tie) : Digits :=
  if b.mantissa = 0 then ⟨0, 0⟩ else strip (search b tie (startScale b) 800) 800

end Shortest

/-- The digit characters of a positive number, most significant first. -/
def Digits.chars (d : Digits) : List Char := (Nat.toDigits 10 d.digits)

/-- The position of the decimal point after the first digit: the value is
`0.d₁d₂… * 10 ^ point`. -/
def Digits.point (d : Digits) : Int := d.chars.length + d.scale

end Decimal
end AtomicStyles
