/-!
# Style values

What the argument of a style call evaluates to: a tree of plain data in which a
function is only known to be one. The properties of an object stand in the order in
which they were first set.
-/

namespace AtomicStyles

/-- A fully evaluated value. -/
inductive StyleValue where
  | undefined
  | null
  | bool (b : Bool)
  | number (x : Float)
  | string (s : String)
  | array (items : List StyleValue)
  | object (fields : List (String × StyleValue))
  | function
deriving Inhabited

namespace StyleValue

/-- The name of a value's kind. -/
def kind : StyleValue → String
  | undefined => "undefined"
  | null => "null"
  | bool _ => "boolean"
  | number _ => "number"
  | string _ => "string"
  | array _ => "array"
  | object _ => "object"
  | function => "function"

end StyleValue
end AtomicStyles
