import AtomicStyles.Decimal.Integer
import AtomicStyles.Decimal.Literal
import AtomicStyles.Decimal.Text
import AtomicStyles.Eval.Machine
import AtomicStyles.Text.Units

/-!
# Conversions between values

The text and the number of a value, and the operators that convert their operands. The
text of an array joins those of its items; that of an array which contains itself does
not exist.

## Main definitions

* `Machine.text` — the text of a value.
* `Eval.text`, `Eval.number` — the text and the number of a value.
* `Eval.looseEquals`, `Eval.compare` — comparison with conversion.
* `Eval.binary` — the binary operators on plain values.
-/

namespace AtomicStyles

open Script

def Function.text : Function → String
  | .defined { name := some name, .. } => "function " ++ name ++ "() \x7b\x7d"
  | _ => "function () \x7b [native code] \x7d"

/-- The text of a value in which arrays nest less than `depth` deep. -/
def Machine.text (m : Machine) : Nat → Value → Except EvalError String
  | _, .undefined => .ok "undefined"
  | _, .null => .ok "null"
  | _, .bool b => .ok (if b then "true" else "false")
  | _, .number x => .ok (Decimal.text x)
  | _, .string s => .ok s
  | _, .object _ => .ok "[object Object]"
  | _, .module _ => .ok "[object Module]"
  | _, .function _ f => .ok f.text
  | 0, .array _ => .error .endlessText
  | depth + 1, .array r => do
    let texts ← (m.arrayCell r).content.toList.mapM fun v =>
      if v.isNullish then .ok "" else m.text depth v
    return ",".intercalate texts

namespace Eval

/-- The text of a value. Arrays that nest deeper than there are arrays contain themselves. -/
def text (v : Value) : Eval String := do
  match v with
  | .string s => return s
  | v =>
    let m ← get
    conclude (m.text (m.arrays.size + 1) v)

def texts (vs : List Value) : Eval (List String) := vs.mapM text

/-- The texts of the items of an array; what is missing has none. -/
def itemTexts (vs : List Value) : Eval (List String) :=
  vs.mapM fun v => if v.isNullish then return "" else text v

def number (v : Value) : Eval Float := do
  match v with
  | .undefined => return Decimal.nan
  | .null => return 0.0
  | .bool b => return if b then 1.0 else 0.0
  | .number x => return x
  | .string s => return Decimal.ofText s
  | .array r => return Decimal.ofText (← text (.array r))
  | .object _ => return Decimal.nan
  | .function _ _ => return Decimal.nan
  | .module _ => return Decimal.nan

/-- A value that is not an object: objects of all kinds become their text. -/
def primitive (v : Value) : Eval Value := do
  match v with
  | .object _ => return .string (← text v)
  | .array _ => return .string (← text v)
  | .function _ _ => return .string (← text v)
  | .module _ => return .string (← text v)
  | v => return v

/-! ### Comparison -/

/-- A truth value as a number. -/
def unbool : Value → Value
  | .bool b => .number (if b then 1.0 else 0.0)
  | v => v

/-- Equality of values of which none is a truth value or missing, an array next to a plain
value having become a text. -/
def plainEquals (a b : Value) : Eval Bool := do
  match a, b with
  | .number x, .string _ => return x == (← number b)
  | .string _, .number y => return (← number a) == y
  | a, b => return a.strictEquals b

/-- Equality with conversion. -/
def looseEquals (a b : Value) : Eval Bool := do
  if a.isNullish || b.isNullish then return a.isNullish && b.isNullish
  else
    match unbool a, unbool b with
    | .array r, .string s => plainEquals (.string (← text (.array r))) (.string s)
    | .array r, .number x => plainEquals (.string (← text (.array r))) (.number x)
    | .string s, .array r => plainEquals (.string s) (.string (← text (.array r)))
    | .number x, .array r => plainEquals (.number x) (.string (← text (.array r)))
    | a, b => plainEquals a b

/-- The order of two numbers; none if one of them is not a number. -/
def compareNumbers (x y : Float) : Option Ordering :=
  if x < y then some .lt else if x == y then some .eq else if y < x then some .gt else none

/-- The order of two values: that of the units of texts, otherwise that of numbers. -/
def compare (a b : Value) : Eval (Option Ordering) := do
  match ← primitive a, ← primitive b with
  | .string s, .string t => return some (Text.compareUnits (Text.units s) (Text.units t))
  | a, b => return compareNumbers (← number a) (← number b)

/-! ### Operators -/

/-- The sum of two values, or their texts joined if one of them is a text. -/
def add (a b : Value) : Eval Value := do
  match ← primitive a, ← primitive b with
  | .string s, b => return .string (s ++ (← text b))
  | a, .string t => return .string ((← text a) ++ t)
  | a, b => return .number ((← number a) + (← number b))

def arithmetic (f : Float → Float → Float) (a b : Value) : Eval Value := do
  return .number (f (← number a) (← number b))

/-- An operator on 32-bit words whose result is read with a sign. -/
def bitwise (f : UInt32 → UInt32 → UInt32) (a b : Value) : Eval Value := do
  return .number (Decimal.ofSignedWord (f (Decimal.word (← number a)) (Decimal.word (← number b))))

/-- A comparison that holds for the orders in `test`. -/
def relation (test : Ordering → Bool) (a b : Value) : Eval Value := do
  return .bool ((← compare a b).any test)

/-- The right shift that keeps the sign. -/
def shiftSigned (a b : UInt32) : UInt32 := (a.toInt32 >>> (b &&& 31).toInt32).toUInt32

/-- The right shift that fills with zeros. -/
def shiftUnsigned (a b : Value) : Eval Value := do
  let w := Decimal.word (← number a)
  return .number ((w >>> (Decimal.word (← number b) &&& 31)).toNat.toFloat)

/-- A binary operator that evaluates both operands; `isIn` tells whether a value has a
property. -/
def binary (isIn : Value → Value → Eval Bool) (op : BinaryOp) (a b : Value) : Eval Value := do
  match op with
  | .add => add a b
  | .sub => arithmetic (· - ·) a b
  | .mul => arithmetic (· * ·) a b
  | .div => arithmetic (· / ·) a b
  | .rem => arithmetic Decimal.remainder a b
  | .pow => arithmetic Float.pow a b
  | .eq => return .bool (← looseEquals a b)
  | .ne => return .bool !(← looseEquals a b)
  | .strictEq => return .bool (a.strictEquals b)
  | .strictNe => return .bool !(a.strictEquals b)
  | .lt => relation (· == .lt) a b
  | .le => relation (· != .gt) a b
  | .gt => relation (· == .gt) a b
  | .ge => relation (· != .lt) a b
  | .bitAnd => bitwise (· &&& ·) a b
  | .bitOr => bitwise (· ||| ·) a b
  | .bitXor => bitwise (· ^^^ ·) a b
  | .shiftLeft => bitwise (fun x y => x <<< (y &&& 31)) a b
  | .shiftRight => bitwise shiftSigned a b
  | .shiftRightZero => shiftUnsigned a b
  | .isIn => return .bool (← isIn a b)
  | .instanceOf => unsupported .instanceOf
  | .and => unsupported .logicalOperator
  | .or => unsupported .logicalOperator
  | .coalesce => unsupported .logicalOperator

def unary (op : UnaryOp) (v : Value) : Eval Value := do
  match op with
  | .negate => return .number (-(← number v))
  | .plus => return .number (← number v)
  | .not => return .bool !v.isTrue
  | .complement => return .number (Decimal.ofSignedWord (~~~ Decimal.word (← number v)))
  | .typeOf => return .string v.typeName
  | .void => return .undefined
  | .delete => return .undefined

end Eval
end AtomicStyles
