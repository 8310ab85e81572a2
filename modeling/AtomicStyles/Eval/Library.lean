import AtomicStyles.Eval.Error

/-!
# The library of evaluated code

The functions that evaluated code finds without declaring them, and the methods of its
values, by name.

## Main definitions

* `Builtin` — functions of the library.
* `TextMethod`, `ListMethod`, `NumberMethod`, `ObjectMethod` — methods of values.
* `Builtin.ofGlobal?`, `GlobalObject.functions` — where the functions are found.
-/

namespace AtomicStyles

/-- A function of the library. -/
inductive Builtin where
  | max
  | min
  | round
  | floor
  | ceil
  | abs
  | pow
  | sqrt
  | trunc
  | sign
  | random
  | assign
  | keys
  | values
  | entries
  | freeze
  | isFrozen
  | fromEntries
  | isArray
  | arrayFrom
  | arrayOf
  | stringify
  | parse
  | string
  | number
  | boolean
  | parseInt
  | parseFloat
  | isNaN
  | isFinite
  | numberIsInteger
  | numberIsFinite
  | numberIsNaN
  | error (kind : ErrorKind)
  | log
deriving Repr, DecidableEq, Inhabited

inductive TextMethod where
  | toUpperCase
  | toLowerCase
  | trim
  | trimStart
  | trimEnd
  | split
  | slice
  | substring
  | startsWith
  | endsWith
  | includes
  | indexOf
  | replace
  | replaceAll
  | padStart
  | padEnd
  | repeats
  | concat
  | charAt
  | at
  | toString
deriving Repr, DecidableEq, Inhabited

def TextMethod.ofName? : String → Option TextMethod
  | "toUpperCase" => some toUpperCase
  | "toLowerCase" => some toLowerCase
  | "trim" => some trim
  | "trimStart" => some trimStart
  | "trimEnd" => some trimEnd
  | "split" => some split
  | "slice" => some slice
  | "substring" => some substring
  | "startsWith" => some startsWith
  | "endsWith" => some endsWith
  | "includes" => some includes
  | "indexOf" => some indexOf
  | "replace" => some replace
  | "replaceAll" => some replaceAll
  | "padStart" => some padStart
  | "padEnd" => some padEnd
  | "repeat" => some repeats
  | "concat" => some concat
  | "charAt" => some charAt
  | "at" => some «at»
  | "toString" => some toString
  | _ => none

/-- A method of an array. -/
inductive ListMethod where
  | map
  | filter
  | forEach
  | flatMap
  | find
  | findIndex
  | some
  | every
  | reduce
  | join
  | toString
  | flat
  | slice
  | concat
  | includes
  | indexOf
  | at
  | push
  | pop
  | shift
  | unshift
  | reverse
  | sort
deriving Repr, DecidableEq, Inhabited

def ListMethod.ofName? : String → Option ListMethod
  | "map" => .some map
  | "filter" => .some filter
  | "forEach" => .some forEach
  | "flatMap" => .some flatMap
  | "find" => .some find
  | "findIndex" => .some findIndex
  | "some" => .some .some
  | "every" => .some every
  | "reduce" => .some reduce
  | "join" => .some join
  | "toString" => .some toString
  | "flat" => .some flat
  | "slice" => .some slice
  | "concat" => .some concat
  | "includes" => .some includes
  | "indexOf" => .some indexOf
  | "at" => .some «at»
  | "push" => .some push
  | "pop" => .some pop
  | "shift" => .some shift
  | "unshift" => .some unshift
  | "reverse" => .some reverse
  | "sort" => .some sort
  | _ => none

inductive NumberMethod where
  | toFixed
  | toString
deriving Repr, DecidableEq, Inhabited

def NumberMethod.ofName? : String → Option NumberMethod
  | "toFixed" => some toFixed
  | "toString" => some toString
  | _ => none

inductive ObjectMethod where
  | hasOwnProperty
  | toString
deriving Repr, DecidableEq, Inhabited

def ObjectMethod.ofName? : String → Option ObjectMethod
  | "hasOwnProperty" => some hasOwnProperty
  | "toString" => some toString
  | _ => none

/-- The functions that are global names. -/
def Builtin.ofGlobal? : String → Option Builtin
  | "String" => some string
  | "Number" => some number
  | "Boolean" => some boolean
  | "parseInt" => some parseInt
  | "parseFloat" => some parseFloat
  | "isNaN" => some isNaN
  | "isFinite" => some isFinite
  | "Error" => some (error .error)
  | "TypeError" => some (error .type)
  | "RangeError" => some (error .range)
  | _ => none

/-- What a property of a function of the library is. -/
inductive BuiltinMember where
  | function (b : Builtin)
  | constant (x : Float)

/-- The properties of the functions of the library. -/
def Builtin.member? : Builtin → String → Option BuiltinMember
  | number, "isInteger" => some (.function numberIsInteger)
  | number, "isFinite" => some (.function numberIsFinite)
  | number, "isNaN" => some (.function numberIsNaN)
  | number, "parseFloat" => some (.function parseFloat)
  | number, "parseInt" => some (.function parseInt)
  | number, "MAX_SAFE_INTEGER" => some (.constant 9007199254740991.0)
  | number, "MIN_SAFE_INTEGER" => some (.constant (-9007199254740991.0))
  | number, "EPSILON" => some (.constant 2.220446049250313e-16)
  | _, _ => none

inductive GlobalObject where
  | math
  | object
  | array
  | json
  | console
deriving Repr, DecidableEq, Inhabited

namespace GlobalObject

def ofName? : String → Option GlobalObject
  | "Math" => some math
  | "Object" => some object
  | "Array" => some array
  | "JSON" => some json
  | "console" => some console
  | _ => none

def functions : GlobalObject → List (String × Builtin)
  | math => [("max", .max), ("min", .min), ("round", .round), ("floor", .floor), ("ceil", .ceil),
      ("abs", .abs), ("pow", .pow), ("sqrt", .sqrt), ("trunc", .trunc), ("sign", .sign),
      ("random", .random)]
  | object => [("assign", .assign), ("keys", .keys), ("values", .values), ("entries", .entries),
      ("freeze", .freeze), ("isFrozen", .isFrozen), ("fromEntries", .fromEntries)]
  | array => [("isArray", .isArray), ("from", .arrayFrom), ("of", .arrayOf)]
  | json => [("stringify", .stringify), ("parse", .parse)]
  | console => [("log", .log), ("info", .log), ("warn", .log), ("error", .log), ("debug", .log)]

/-- The numbers of a global object, by name. -/
def constants : GlobalObject → List (String × Float)
  | math => [("PI", 3.141592653589793), ("E", 2.718281828459045)]
  | _ => []

end GlobalObject

/-- The global names that only a browser or another host gives a meaning. -/
def hostNames : List String :=
  ["window", "document", "navigator", "location", "history", "screen", "localStorage",
    "sessionStorage", "matchMedia", "getComputedStyle", "requestAnimationFrame", "setTimeout",
    "setInterval", "fetch", "self", "globalThis", "process", "require", "module", "exports"]

end AtomicStyles
