import AtomicStyles.Eval.ListMethods
import AtomicStyles.Json.Printer

/-!
# Functions of the library

## Main definitions

* `Eval.global` — the value of a global name.
* `Eval.toJson`, `Eval.ofJson` — values and documents.
* `Eval.callBuiltin` — the functions of the library.
-/

namespace AtomicStyles

/-- How deep a value may nest that is written out as a whole. -/
def maxValueDepth : Nat := 64

namespace Eval

/-! ### Global names -/

/-- The value of a global object that has been asked for before. -/
def madeGlobal (g : GlobalObject) : Eval (Option Value) := return (← get).globals.lookup g

def keepGlobal (g : GlobalObject) (v : Value) : Eval Unit :=
  modify fun m => { m with globals := (g, v) :: m.globals }

/-- A new object with the functions and numbers of a global object. -/
def newGlobal (g : GlobalObject) : Eval Value := do
  let functions ← g.functions.mapM fun (name, b) => return (name, ← newFunction (.builtin b))
  newObject ⟨functions ++ g.constants.map fun (name, x) => (name, .number x)⟩

/-- The value of a global object, made at the first request. -/
def globalObject (g : GlobalObject) : Eval Value := do
  match ← madeGlobal g with
  | some v => return v
  | none =>
    let v ← newGlobal g
    keepGlobal g v
    return v

/-- The value of a name that neither the scopes nor the module know. -/
def global (name : String) : Eval Value := do
  match name with
  | "undefined" => return .undefined
  | "NaN" => return .number Decimal.nan
  | "Infinity" => return .number Decimal.infinity
  | _ =>
    match Builtin.ofGlobal? name, GlobalObject.ofName? name with
    | some b, _ => newFunction (.builtin b)
    | none, some g => globalObject g
    | none, none =>
      if hostNames.contains name then throw (.unavailable (.host name))
      else throw (.unavailable (.undefined name))

/-! ### JSON -/

/-- The document of a number: an integer where it is one that is not too large. -/
def numberJson (x : Float) : Json :=
  match (Decimal.Binary.ofFloat? x).bind Decimal.Binary.toInt? with
  | some n => if x.abs < 9e15 then .int n else .real x
  | none => if x.isNaN || x.isInf then .null else .real x

/-- The document of a value in which objects and arrays nest less than `depth` deep; `none` for
what has none. -/
def toJson (r : Interp) : Nat → Value → Eval (Option Json)
  | 0, _ => throw (.type .cyclicJson)
  | depth + 1, v => do
    match v with
    | .undefined => return none
    | .function _ _ => return none
    | .null => return some .null
    | .bool b => return some (.bool b)
    | .number x => return some (numberJson x)
    | .string s => return some (.str s)
    | .array a =>
      let docs ← (← items a).toList.mapM fun v => return (← toJson r depth v).getD .null
      return some (.arr docs)
    | v =>
      let fields ← (← entries r v).mapM fun (key, v) =>
        return (← toJson r depth v).map fun doc => (key, doc)
      return some (.obj (fields.filterMap id))

mutual

def ofJson : Json → Eval Value
  | .null => return .null
  | .bool b => return .bool b
  | .int n => return .number (Decimal.signed (n < 0) (Decimal.nearest n.natAbs 0))
  | .real x => return .number x
  | .str s => return .string s
  | .arr docs => do newArray (← ofJsonItems docs).toArray
  | .obj fields => do newObject ⟨← ofJsonFields fields⟩

def ofJsonItems : List Json → Eval (List Value)
  | [] => return []
  | d :: ds => do
    let v ← ofJson d
    return v :: (← ofJsonItems ds)

def ofJsonFields : List (String × Json) → Eval (List (String × Value))
  | [] => return []
  | (key, d) :: ds => do
    let v ← ofJson d
    return (key, v) :: (← ofJsonFields ds)

end

/-- The text of the document of a value; it stands on several lines if an indentation is given,
whichever that is. -/
def stringify (r : Interp) (args : List Value) : Eval Value := do
  match ← toJson r (maxValueDepth + 1) (argument args 0) with
  | none => return .undefined
  | some doc =>
    return .string (if (argument args 2).isNullish then doc.compact else doc.pretty)

def parseJson (args : List Value) : Eval Value := do
  match Json.parse? (← text (argument args 0)) with
  | some doc => ofJson doc
  | none => raise .malformedJson

/-! ### Objects and arrays -/

def assignAll (r : Interp) (args : List Value) : Eval Value := do
  match argument args 0 with
  | .object o =>
    args.tail.forM fun source => do
      (← entries r source).forM fun (key, v) => setProperty (.object o) key v
    return .object o
  | _ => unsupported .assignTarget

/-- An array of something about each property of a value. -/
def listEntries (r : Interp) (args : List Value) (f : String × Value → Eval Value) :
    Eval Value := do
  let v := argument args 0
  if v.isNullish then throw (.type .nullishEntries)
  else newArray (← (← entries r v).mapM f).toArray

def objectFromEntries (r : Interp) (args : List Value) : Eval Value := do
  let ps ← (← entries r (argument args 0)).mapM fun (_, pair) => do
    let key ← text (← getProperty r pair "0")
    return (key, ← getProperty r pair "1")
  newObject (OrderedMap.ofList ps)

def freeze (v : Value) : Eval Value := do
  match v with
  | .object o => modifyObject o fun c => { c with isFrozen := true }
  | .array a => modifyArray a fun c => { c with isFrozen := true }
  | _ => pure ()
  return v

/-- Whether a value cannot be changed. -/
def isFrozen (v : Value) : Eval Bool := do
  match v with
  | .object o => isFrozenObject o
  | .array a => isFrozenArray a
  | _ => return true

def sourceItems (r : Interp) (v : Value) : Eval (List Value) := do
  match v with
  | .array a => return (← items a).toList
  | .string s => return unitTexts s
  | .object o =>
    let n ← count (← getProperty r (.object o) "length")
    (List.range n).mapM fun i => getProperty r (.object o) (toString i)
  | _ => return []

/-- A new array from the items of a value, each passed through a function if one is given. -/
def arrayFrom (r : Interp) (args : List Value) : Eval Value := do
  let vs ← sourceItems r (argument args 0)
  let f := argument args 1
  let vs ← if f.isFunction then
      vs.zipIdx.mapM fun (v, i) => r.call f [v, .number i.toFloat]
    else pure vs
  newArray vs.toArray

/-! ### Numbers -/

/-- Folds the numbers of the arguments; one that is not a number makes the result none. -/
def foldNumbers (f : Float → Float → Float) (start : Float) (args : List Value) :
    Eval Value := do
  let xs ← args.mapM number
  return .number (xs.foldl (fun acc x => if acc.isNaN || x.isNaN then Decimal.nan else f acc x) start)

/-- A function on the number of the first argument. -/
def onNumber (f : Float → Float) (args : List Value) : Eval Value := do
  return .number (f (← number (argument args 0)))

/-- A test of the first argument that only numbers pass. -/
def testNumber (f : Float → Bool) (args : List Value) : Eval Value := do
  match argument args 0 with
  | .number x => return .bool (f x)
  | _ => return .bool false

/-- The sign of a number, as a number. -/
def signum (x : Float) : Float :=
  if x.isNaN || x == 0.0 then x else if x < 0.0 then -1.0 else 1.0

/-- The base that an argument gives; zero and what is not a number give none. -/
def radixArgument (v : Value) : Eval (Option Nat) :=
  optional v none fun v => do
    let x ← number v
    return if x.isNaN || x == 0.0 then none else some (min (Decimal.toNat x) (Nat.pow 2 32 - 1))

/-- Calls a function of the library. -/
def callBuiltin (r : Interp) (b : Builtin) (args : List Value) : Eval Value := do
  let v := argument args 0
  match b with
  | .max => foldNumbers (fun acc x => if acc < x then x else acc) (-Decimal.infinity) args
  | .min => foldNumbers (fun acc x => if x < acc then x else acc) Decimal.infinity args
  | .round => onNumber (fun x => (x + 0.5).floor) args
  | .floor => onNumber Float.floor args
  | .ceil => onNumber Float.ceil args
  | .abs => onNumber Float.abs args
  | .sqrt => onNumber Float.sqrt args
  | .trunc => onNumber Decimal.truncate args
  | .sign => onNumber signum args
  | .pow => return .number (Float.pow (← number v) (← number (argument args 1)))
  | .random => unsupported .random
  | .assign => assignAll r args
  | .keys => listEntries r args fun (key, _) => return .string key
  | .values => listEntries r args fun (_, v) => return v
  | .entries => listEntries r args fun (key, v) => newArray #[.string key, v]
  | .freeze => freeze v
  | .isFrozen => return .bool (← isFrozen v)
  | .fromEntries => objectFromEntries r args
  | .isArray => return .bool (match v with | .array _ => true | _ => false)
  | .arrayFrom => arrayFrom r args
  | .arrayOf => newArray args.toArray
  | .stringify => stringify r args
  | .parse => parseJson args
  | .string => if args.isEmpty then return .string "" else return .string (← text v)
  | .number => if args.isEmpty then return .number 0.0 else return .number (← number v)
  | .boolean => return .bool v.isTrue
  | .parseInt =>
    let base ← radixArgument (argument args 1)
    return .number (Decimal.leadingInt (← text v) base)
  | .parseFloat => return .number (Decimal.leading (← text v))
  | .isNaN => return .bool (← number v).isNaN
  | .isFinite => return .bool (← number v).isFinite
  | .numberIsInteger => testNumber (fun x => x.isFinite && Decimal.truncate x == x) args
  | .numberIsFinite => testNumber Float.isFinite args
  | .numberIsNaN => testNumber Float.isNaN args
  | .error kind => newError kind (← optional v "" text)
  | .log =>
    let _ ← texts args
    return .undefined

end Eval
end AtomicStyles
