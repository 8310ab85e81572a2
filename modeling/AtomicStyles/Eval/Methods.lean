import AtomicStyles.Base36
import AtomicStyles.Eval.Property
import AtomicStyles.Text.Letters
import AtomicStyles.Text.Split

/-!
# Methods of texts, numbers and plain objects

Places in a text are counted in units, and places that lie outside it are moved to its
ends.

## Main definitions

* `Eval.callText` — the methods of texts.
* `Eval.callNumber` — the methods of numbers.
* `Eval.callObject` — the methods of objects.
-/

namespace AtomicStyles

/-- An argument; one that is missing is undefined. -/
def argument (args : List Value) (i : Nat) : Value := args.getD i .undefined

/-- The digits of an integer in a base up to 36. -/
def integerText (base : Nat) (n : Int) : String :=
  let rec digits : Nat → Nat → List Char → List Char
    | 0, _, cs => cs
    | fuel + 1, n, cs =>
      let cs := Base36.digitChar (n % base) :: cs
      if n / base = 0 then cs else digits fuel (n / base) cs
  String.ofList ((if n < 0 then ['-'] else []) ++ digits (n.natAbs + 1) n.natAbs [])

namespace Eval

/-- What an argument gives; one that is missing gives a default. -/
def optional {α : Type} (v : Value) (default : α) (f : Value → Eval α) : Eval α :=
  match v with
  | .undefined => return default
  | v => f v

/-! ### Places -/

/-- A number without its fraction; what is not a number is zero. -/
def wholePart (x : Float) : Float := if x.isNaN then 0.0 else Decimal.truncate x

/-- The place that an argument stands for in something of the given length: negative ones count
from the end. -/
def relativePlace (length default : Nat) (v : Value) : Eval Nat :=
  optional v default fun v => do
    let x := wholePart (← number v)
    return if x < 0.0 then Decimal.toNat (length.toFloat + x) else min (Decimal.toNat x) length

/-- The place that an argument stands for in something of the given length: negative ones are
at the start. -/
def clampedPlace (length default : Nat) (v : Value) : Eval Nat :=
  optional v default fun v => return min (Decimal.toNat (← number v)) length

/-- The place of one item; negative ones count from the end if `fromEnd` says so. -/
def itemPlace (length : Nat) (fromEnd : Bool) (v : Value) : Eval (Option Nat) := do
  let x := wholePart (← number v)
  let x := if fromEnd && x < 0.0 then length.toFloat + x else x
  return if x < 0.0 || length ≤ Decimal.toNat x then none else some (Decimal.toNat x)

/-- A count that is given by an argument; what is negative or not a number is zero. -/
def count (v : Value) : Eval Nat := return Decimal.toNat (← number v)

/-! ### Texts -/

/-- The units with `needle` replaced from the place `start` on, once or wherever it stands.
`fuel` bounds how often. -/
def replaceFrom (needle hay : List UInt16) (isAll : Bool) (replacement : Nat → Eval String) :
    Nat → Nat → Eval (List UInt16)
  | 0, start => return hay.drop start
  | fuel + 1, start => do
    match Text.findUnits needle hay start with
    | none => return hay.drop start
    | some found =>
      let text ← replacement found
      let next := found + needle.length
      let rest ←
        if isAll && !needle.isEmpty then replaceFrom needle hay isAll replacement fuel next
        else pure (hay.drop next)
      return (hay.drop start).take (found - start) ++ Text.units text ++ rest

/-- A text with another replaced by a value or by what a function gives for each place. -/
def replaceText (r : Interp) (s : String) (isAll : Bool) (args : List Value) : Eval Value := do
  let needle ← text (argument args 0)
  let replacement (found : Nat) : Eval String := do
    match argument args 1 with
    | .function id f =>
      text (← r.call (.function id f) [.string needle, .number found.toFloat, .string s])
    | v => text v
  let hay := Text.units s
  let us ← replaceFrom (Text.units needle) hay isAll replacement (hay.length + 1) 0
  return .string (Text.ofUnits us)

/-- The first `n` units of a list that repeats forever. -/
def cycle (us : List UInt16) (n : Nat) : List UInt16 :=
  ((List.replicate (n / us.length + 1) us).flatten).take n

/-- A text filled up to a number of units, at its start or at its end. -/
def padText (s : String) (atStart : Bool) (args : List Value) : Eval Value := do
  let us := Text.units s
  let target ← count (argument args 0)
  let filler := Text.units (← optional (argument args 1) " " text)
  if target ≤ us.length || filler.isEmpty then return .string s
  else
    let padding := cycle filler (target - us.length)
    return .string (Text.ofUnits (if atStart then padding ++ us else us ++ padding))

def splitText (s : String) (args : List Value) : Eval Value := do
  let parts ← optional (argument args 0) [.string s] fun v => do
    let sep ← text v
    return if sep.isEmpty then unitTexts s else (Text.split sep s).map .string
  let parts ← optional (argument args 1) parts fun v => return parts.take (← count v)
  newArray parts.toArray

/-- A text several times over. -/
def repeatText (s : String) (args : List Value) : Eval Value := do
  let x ← number (argument args 0)
  if x < 0.0 || x.isInf then raise (.repeatCount x)
  else return .string (String.join (List.replicate (Decimal.toNat x) s))

/-- The part of some units between two places. -/
def unitSlice (us : List UInt16) (start stop : Nat) : Value :=
  .string (Text.ofUnits ((us.take stop).drop start))

def callText (r : Interp) (s : String) (method : TextMethod) (args : List Value) : Eval Value := do
  let us := Text.units s
  match method with
  | .toUpperCase => return .string (Text.upper s)
  | .toLowerCase => return .string (Text.lower s)
  | .trim => return .string (Text.trim s)
  | .trimStart => return .string (String.ofList (Text.trimStart s.toList))
  | .trimEnd => return .string (String.ofList (Text.trimEnd s.toList))
  | .toString => return .string s
  | .concat => return .string (s ++ String.join (← texts args))
  | .repeats => repeatText s args
  | .startsWith => return .bool (Text.startsWith (← text (argument args 0)).toList s.toList)
  | .endsWith =>
    return .bool (Text.startsWith (← text (argument args 0)).toList.reverse s.toList.reverse)
  | .includes => return .bool (Text.contains (← text (argument args 0)).toList s.toList)
  | .replace => replaceText r s false args
  | .replaceAll => replaceText r s true args
  | .padStart => padText s true args
  | .padEnd => padText s false args
  | .split => splitText s args
  | .slice =>
    let start ← relativePlace us.length 0 (argument args 0)
    let stop ← relativePlace us.length us.length (argument args 1)
    return unitSlice us start stop
  | .substring =>
    let a ← clampedPlace us.length 0 (argument args 0)
    let b ← clampedPlace us.length us.length (argument args 1)
    return unitSlice us (min a b) (max a b)
  | .charAt =>
    match ← itemPlace us.length false (argument args 0) with
    | some i => return unitSlice us i (i + 1)
    | none => return .string ""
  | .at =>
    match ← itemPlace us.length true (argument args 0) with
    | some i => return unitSlice us i (i + 1)
    | none => return .undefined
  | .indexOf =>
    let needle ← text (argument args 0)
    let start ← relativePlace us.length 0 (argument args 1)
    match Text.findUnits (Text.units needle) us start with
    | some i => return .number i.toFloat
    | none => return .number (-1.0)

/-! ### Numbers and objects -/

/-- The number with a fixed count of places after the point. -/
def fixedText (x : Float) (args : List Value) : Eval Value := do
  let places ← count (argument args 0)
  if 100 < places then raise .fixedDigits
  else
    match Decimal.Binary.ofFloat? x with
    | some b =>
      return .string (if x.abs < 1e21 then Decimal.fixed b places else Decimal.text x)
    | none => return .string (Decimal.text x)

def radixText (x : Float) (args : List Value) : Eval Value := do
  let base ← optional (argument args 0) 10 fun v => return min (← count v) (Nat.pow 2 32 - 1)
  if base = 10 then return .string (Decimal.text x)
  else
    match (Decimal.Binary.ofFloat? x).bind Decimal.Binary.toInt? with
    | some n =>
      if base < 2 || 36 < base || 9e15 < x.abs then unsupported (.radix base x)
      else return .string (integerText base n)
    | none => unsupported (.radix base x)

def callNumber (x : Float) (method : NumberMethod) (args : List Value) : Eval Value :=
  match method with
  | .toFixed => fixedText x args
  | .toString => radixText x args

def callObject (o : ObjectRef) (method : ObjectMethod) (args : List Value) : Eval Value := do
  match method with
  | .hasOwnProperty => return .bool ((← properties o).contains (← text (argument args 0)))
  | .toString => return .string (← text (.object o))

end Eval
end AtomicStyles
