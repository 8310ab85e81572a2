import AtomicStyles.Eval.Library

/-!
# Values of evaluated code

Objects, arrays and functions have an identity: two values are the same object only if
they have the same reference. A module as a whole is a value whose properties are the
module's exports.

## Main definitions

* `Scope` — the names that code at a place sees.
* `Function` — what can be called.
* `Value` — values.
-/

namespace AtomicStyles

open Script

/-- A reference to an object. -/
structure ObjectRef where
  index : Nat
deriving Repr, DecidableEq, Inhabited

/-- A reference to an array. -/
structure ArrayRef where
  index : Nat
deriving Repr, DecidableEq, Inhabited

/-- A reference to a frame of names: the top level of a module, or the frame that was made for
a block or a call. -/
inductive FrameRef where
  | top (module : ModuleId)
  | inner (index : Nat)
deriving Repr, DecidableEq, Inhabited

/-- The names that code at a place sees: those of the frames around it, nearest first, and
those at the top level of its module. -/
structure Scope where
  module : ModuleId
  inner : List Nat := []
deriving Repr, DecidableEq, Inhabited

namespace Scope

def top (s : Scope) : FrameRef := .top s.module

/-- The frames of a scope, nearest first. -/
def frames (s : Scope) : List FrameRef := s.inner.map .inner ++ [s.top]

def nearest (s : Scope) : FrameRef := (s.inner.head?.map .inner).getD s.top

end Scope

inductive FunctionCode where
  | block (stmts : List Stmt)
  | value (e : Expr)
  /-- A function that can be made but not called. -/
  | unsupported (why : Unsupported)

/-- A function that evaluated code has defined. -/
structure Definition where
  name : Option String
  params : List Pat
  code : FunctionCode
  scope : Scope

/-- What can be called. A method knows the value it was read from. -/
inductive Function where
  | defined (d : Definition)
  | builtin (b : Builtin)
  | ofText (receiver : String) (method : TextMethod)
  | ofArray (receiver : ArrayRef) (method : ListMethod)
  | ofNumber (receiver : Float) (method : NumberMethod)
  | ofObject (receiver : ObjectRef) (method : ObjectMethod)
  /-- The text of a truth value. -/
  | ofBool (receiver : Bool)

inductive Value where
  | undefined
  | null
  | bool (b : Bool)
  | number (x : Float)
  | string (s : String)
  | object (ref : ObjectRef)
  | array (ref : ArrayRef)
  /-- A function with its identity. -/
  | function (id : Nat) (f : Function)
  /-- All exports of a module. -/
  | module (id : ModuleId)

instance : Inhabited Value := ⟨.undefined⟩

namespace Value

def isNullish : Value → Bool
  | undefined => true
  | null => true
  | _ => false

def isFunction : Value → Bool
  | function _ _ => true
  | _ => false

/-- Whether a condition that gives this value holds. -/
def isTrue : Value → Bool
  | undefined => false
  | null => false
  | bool b => b
  | number x => !(x.isNaN || x == 0.0)
  | string s => !s.isEmpty
  | _ => true

def typeName : Value → String
  | undefined => "undefined"
  | null => "object"
  | bool _ => "boolean"
  | number _ => "number"
  | string _ => "string"
  | function _ _ => "function"
  | object _ => "object"
  | array _ => "object"
  | module _ => "object"

/-- Equality without conversion; not a number differs from itself. -/
def strictEquals : Value → Value → Bool
  | undefined, undefined => true
  | null, null => true
  | bool a, bool b => a == b
  | number a, number b => a == b
  | string a, string b => a == b
  | object a, object b => a == b
  | array a, array b => a == b
  | function a _, function b _ => a == b
  | module a, module b => a == b
  | _, _ => false

/-- Equality in which not a number equals itself. -/
def sameValue : Value → Value → Bool
  | number a, number b => a == b || (a.isNaN && b.isNaN)
  | a, b => a.strictEquals b

end Value
end AtomicStyles
