/-!
# UTF-16 units

Evaluated code counts and cuts texts in 16-bit units: a character beyond U+FFFF is a
pair of them. Half a pair that is cut off reads as U+FFFD.

## Main definitions

* `Text.units`, `Text.ofUnits` — the units of a text, and the text of units.
* `Text.findUnits` — the place of units in others.
-/

namespace AtomicStyles
namespace Text

def charUnits (c : Char) : List UInt16 :=
  let n := c.toNat
  if n < 0x10000 then [n.toUInt16]
  else [(0xD800 + (n - 0x10000) / 0x400).toUInt16, (0xDC00 + (n - 0x10000) % 0x400).toUInt16]

def units (s : String) : List UInt16 := s.toList.flatMap charUnits

/-- The number of units of a text. -/
def unitCount (s : String) : Nat :=
  s.toList.foldl (fun n c => if c.toNat < 0x10000 then n + 1 else n + 2) 0

/-- Whether a unit opens a pair. -/
def isHigh (u : UInt16) : Bool := 0xD800 ≤ u && u ≤ 0xDBFF

/-- Whether a unit closes a pair. -/
def isLow (u : UInt16) : Bool := 0xDC00 ≤ u && u ≤ 0xDFFF

/-- The character of a unit that is in no pair. -/
def unitChar (u : UInt16) : Char :=
  if isHigh u || isLow u then '\uFFFD' else Char.ofNat u.toNat

def pairChar (u v : UInt16) : Char :=
  Char.ofNat (0x10000 + (u.toNat - 0xD800) * 0x400 + (v.toNat - 0xDC00))

def unitChars : List UInt16 → List Char
  | [] => []
  | [u] => [unitChar u]
  | u :: v :: us =>
    if isHigh u && isLow v then pairChar u v :: unitChars us
    else unitChar u :: unitChars (v :: us)

def ofUnits (us : List UInt16) : String := String.ofList (unitChars us)

/-- Whether units stand at the head of others. -/
def unitsStart : List UInt16 → List UInt16 → Bool
  | [], _ => true
  | _ :: _, [] => false
  | p :: ps, u :: us => p == u && unitsStart ps us

/-- The first place, counted from `at`, where `needle` stands in units. -/
def findFrom (needle : List UInt16) (place : Nat) : List UInt16 → Option Nat
  | [] => if needle.isEmpty then some place else none
  | u :: us => if unitsStart needle (u :: us) then some place else findFrom needle (place + 1) us

/-- The first place at or after `start` where `needle` stands in units. -/
def findUnits (needle hay : List UInt16) (start : Nat) : Option Nat :=
  if needle.isEmpty then some (min start hay.length) else findFrom needle start (hay.drop start)

/-- The order of texts by their units. -/
def compareUnits : List UInt16 → List UInt16 → Ordering
  | [], [] => .eq
  | [], _ :: _ => .lt
  | _ :: _, [] => .gt
  | u :: us, v :: vs => if u < v then .lt else if v < u then .gt else compareUnits us vs

end Text
end AtomicStyles
