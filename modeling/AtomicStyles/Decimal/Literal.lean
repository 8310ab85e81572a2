import AtomicStyles.Decimal.Read
import AtomicStyles.Text.Blank

/-!
# Numbers in texts

How evaluated code reads numbers out of texts.

## Main definitions

* `Decimal.literal?` — a text that is a decimal.
* `Decimal.ofText` — the number a whole text stands for.
* `Decimal.leading` — the longest decimal at the head of a text.
* `Decimal.leadingInt` — the longest integer of a base at the head of a text.
-/

namespace AtomicStyles
namespace Decimal

def nan : Float := 0.0 / 0.0
def infinity : Float := 1.0 / 0.0

/-- A sign at the head of a text: whether it is a minus, and what follows. -/
def takeSign : List Char → Bool × List Char
  | '-' :: cs => (true, cs)
  | '+' :: cs => (false, cs)
  | cs => (false, cs)

def signed (negative : Bool) (x : Float) : Float := if negative then -x else x

/-- The exponent that ends a decimal: nothing, or a letter and an integer. -/
def exponent? : List Char → Option Int
  | [] => some 0
  | c :: cs =>
    if c == 'e' || c == 'E' then
      let (minus, ds) := takeSign cs
      if ds.isEmpty || !ds.all Char.isDigit then none
      else
        let n : Int := ofDigits 10 ds
        some (if minus then -n else n)
    else none

/-- The number that a decimal stands for; `none` for any other text. The point may stand first or
last, but not alone. -/
def literal? (cs : List Char) : Option Float :=
  let (minus, cs) := takeSign cs
  let whole := cs.takeWhile Char.isDigit
  let (fraction, rest) := match cs.dropWhile Char.isDigit with
    | '.' :: rest => (rest.takeWhile Char.isDigit, rest.dropWhile Char.isDigit)
    | rest => ([], rest)
  if whole.isEmpty && fraction.isEmpty then none
  else (exponent? rest).map fun e =>
    signed minus (nearest (ofDigits 10 (whole ++ fraction)) (e - fraction.length))

/-- The number of digits of a base after its mark; a plus sign may stand before them, and they
have to fit 64 bits. -/
def ofRadix (base : Nat) (cs : List Char) : Float :=
  let digits := match cs with
    | '+' :: ds => ds
    | ds => ds
  if digits.isEmpty || !digits.all (isDigitOf base) then nan
  else
    let n := ofDigits base digits
    if n < Nat.pow 2 64 then n.toUInt64.toFloat else nan

/-- The base that two characters at the head of a text announce. -/
def radix? : List Char → Option (Nat × List Char)
  | '0' :: 'x' :: cs => some (16, cs)
  | '0' :: 'X' :: cs => some (16, cs)
  | '0' :: 'o' :: cs => some (8, cs)
  | '0' :: 'O' :: cs => some (8, cs)
  | '0' :: 'b' :: cs => some (2, cs)
  | '0' :: 'B' :: cs => some (2, cs)
  | _ => none

/-- The infinity that a text names. -/
def infinity? (cs : List Char) : Option Float :=
  let (minus, cs) := takeSign cs
  if cs = "Infinity".toList then some (signed minus infinity) else none

/-- The number a text stands for, blanks at its ends apart: zero for nothing, and not a number
for what is no complete literal. -/
def ofText (s : String) : Float :=
  let cs := (Text.trim s).toList
  if cs.isEmpty then 0.0
  else
    match radix? cs with
    | some (base, digits) => ofRadix base digits
    | none => ((infinity? cs).or (literal? cs)).getD nan

/-- What the head of a decimal has shown so far. -/
structure Scan where
  seenDigit : Bool := false
  seenPoint : Bool := false
  seenExponent : Bool := false
  previous : Option Char := none

/-- The longest head of a text in which signs, points and exponents stand where a decimal can
have them. -/
def scanHead (s : Scan) : List Char → List Char
  | [] => []
  | c :: cs =>
    let next := { s with previous := some c }
    if c.isDigit then c :: scanHead { next with seenDigit := true } cs
    else if c == '+' || c == '-' then
      if s.previous == none || s.previous == some 'e' || s.previous == some 'E' then
        c :: scanHead next cs
      else []
    else if c == '.' && !s.seenPoint && !s.seenExponent then
      c :: scanHead { next with seenPoint := true } cs
    else if (c == 'e' || c == 'E') && s.seenDigit && !s.seenExponent then
      c :: scanHead { next with seenExponent := true } cs
    else []

/-- The first of a text, the text without its last character, and so on, that is a decimal. The
text stands backwards. -/
def longestLiteral : List Char → Float
  | [] => nan
  | c :: cs => ((literal? (c :: cs).reverse)).getD (longestLiteral cs)

/-- The number at the head of a text, blanks before it apart. -/
def leading (s : String) : Float :=
  let cs := Text.trimStart s.toList
  let (minus, rest) := takeSign cs
  if Text.startsWith "Infinity".toList rest then signed minus infinity
  else longestLiteral (scanHead {} cs).reverse

/-- The integer of a base at the head of a text, blanks before it apart. The base is 16 after
`0x` unless another is given, and else 10. -/
def leadingInt (s : String) (base : Option Nat) : Float :=
  let (minus, cs) := takeSign (Text.trimStart s.toList)
  let isHex := match cs with
    | '0' :: 'x' :: _ => base == none || base == some 16
    | '0' :: 'X' :: _ => base == none || base == some 16
    | _ => false
  let base := if isHex then 16 else base.getD 10
  if base < 2 || 36 < base then nan
  else
    let digits := (if isHex then cs.drop 2 else cs).takeWhile (isDigitOf base)
    if digits.isEmpty then nan
    else
      let value (c : Char) : Float := ((digitValue? c).getD 0).toFloat
      signed minus (digits.foldl (fun x c => x * base.toFloat + value c) 0.0)

end Decimal
end AtomicStyles
