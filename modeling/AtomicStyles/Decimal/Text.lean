import AtomicStyles.Decimal.Layout

/-!
# The text of a number

The text of a number in evaluated code and in style values: the fewest digits that
read back, positional while the point stands at most 21 places after or 5 places
before the first digit, otherwise with a signed exponent.
-/

namespace AtomicStyles
namespace Decimal

/-- The layout of numbers in evaluated code. -/
def scriptLayout : Layout :=
  { leastPoint := -5, greatestPoint := 21, keepFraction := false, plusSign := true
    tie := .up }

/-- The text of a number; both zeros are `0`. -/
def text (x : Float) : String :=
  match Binary.ofFloat? x with
  | none => if x.isNaN then "NaN" else if 0 < x then "Infinity" else "-Infinity"
  | some b => if b.mantissa = 0 then "0" else String.ofList (scriptLayout.render b)

end Decimal
end AtomicStyles
