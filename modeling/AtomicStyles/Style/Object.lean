import AtomicStyles.Decimal.Text
import AtomicStyles.OrderedMap
import AtomicStyles.Style.Selector
import AtomicStyles.Style.Value

/-!
# Style objects

A style object has named slots. Its rules are read into blocks: declarations that
stand next to each other in one context form a block, in source order.

## Main definitions

* `Literal` — the value of a declaration, or several to try in order.
* `Block`, `StyleObject` — declarations by context, and blocks by slot.
* `StyleObject.ofValue` — reads a value, or says what is wrong with it.
-/

namespace AtomicStyles

/-- What is wrong with a style object. -/
inductive StyleError where
  | notAnObject (found : String)
  | slotNotAnObject (slot found : String)
  | invalidValue (slot property found : String)
  | invalidNesting (slot key : String)
deriving Repr, DecidableEq

def StyleError.message : StyleError → String
  | .notAnObject found => s!"Expected the style argument to be an object, found {found}"
  | .slotNotAnObject slot found => s!"Expected styles of '{slot}' to be an object, found {found}"
  | .invalidValue slot property found =>
    s!"Property '{property}' of '{slot}' has an invalid value ({found})"
  | .invalidNesting slot key =>
    s!"Nested key '{key}' of '{slot}' is neither a selector nor a supported at-rule"

/-- The value of a declaration. -/
inductive Literal where
  | value (text : String)
  /-- Values a browser tries in order. -/
  | fallbacks (texts : List String)
deriving Repr, DecidableEq

/-- Declarations of one context. -/
structure Block where
  path : List Segment
  declarations : OrderedMap String Literal

/-- The blocks of every slot, in source order. -/
structure StyleObject where
  slots : OrderedMap String (List Block) := {}

namespace StyleObject

/-- Characters that would end a declaration or a rule early. -/
def isUnsafe (c : Char) : Bool := c == ';' || c == '\x7b' || c == '\x7d'

def stringText (slot property value : String) : Except StyleError String :=
  if value.toList.any isUnsafe then .error (.invalidValue slot property "unsafe string")
  else .ok (Text.trim value)

/-- The texts of the items of an array value; `null` and `undefined` are left out. -/
def fallbackTexts (slot property : String) : List StyleValue → Except StyleError (List String)
  | [] => .ok []
  | .undefined :: vs => fallbackTexts slot property vs
  | .null :: vs => fallbackTexts slot property vs
  | .string s :: vs => do
    let t ← stringText slot property s
    return t :: (← fallbackTexts slot property vs)
  | .number x :: vs => do return Decimal.text x :: (← fallbackTexts slot property vs)
  | v :: _ => .error (.invalidValue slot property v.kind)

/-- The literal of a value that is not an object; `none` for one that declares nothing. -/
def literal (slot property : String) : StyleValue → Except StyleError (Option Literal)
  | .undefined => .ok none
  | .null => .ok none
  | .string s => do return some (.value (← stringText slot property s))
  | .number x => .ok (some (.value (Decimal.text x)))
  | .array vs => do
    match ← fallbackTexts slot property vs with
    | [] => return none
    | [t] => return some (.value t)
    | ts => return some (.fallbacks ts)
  | v => .error (.invalidValue slot property v.kind)

/-- Adds a declaration to the last block, or opens a new one in another context. Blocks stand
last first. -/
def declare (path : List Segment) (property : String) (l : Literal) : List Block → List Block
  | [] => [⟨path, OrderedMap.empty.insert property l⟩]
  | b :: bs =>
    if b.path = path then { b with declarations := b.declarations.insert property l } :: bs
    else ⟨path, OrderedMap.empty.insert property l⟩ :: b :: bs

mutual

def addValue (slot : String) (path : List Segment) (key : String) (blocks : List Block) :
    StyleValue → Except StyleError (List Block)
  | .object fields =>
    match (Nesting.ofKey key).segments? with
    | none => .error (.invalidNesting slot key)
    | some segments =>
      segments.foldlM (fun bs s => addFields slot (path ++ [s]) bs fields) blocks
  | v => do
    match ← literal slot key v with
    | none => return blocks
    | some l =>
      if Nesting.ofKey key = .invalid then return declare path key l blocks
      else .error (.invalidValue slot key "non-object")

/-- Adds the declarations of an object's fields, in their order. -/
def addFields (slot : String) (path : List Segment) (blocks : List Block) :
    List (String × StyleValue) → Except StyleError (List Block)
  | [] => .ok blocks
  | (key, v) :: fields => do
    addFields slot path (← addValue slot path key blocks v) fields

end

def slotBlocks (slot : String) : StyleValue → Except StyleError (List Block)
  | .object fields => do return (← addFields slot [] [] fields).reverse
  | v => .error (.slotNotAnObject slot v.kind)

def addSlots (acc : OrderedMap String (List Block)) :
    List (String × StyleValue) → Except StyleError (OrderedMap String (List Block))
  | [] => .ok acc
  | (slot, v) :: rest => do addSlots (acc.insert slot (← slotBlocks slot v)) rest

def ofValue : StyleValue → Except StyleError StyleObject
  | .object fields => do return ⟨← addSlots {} fields⟩
  | v => .error (.notAnObject v.kind)

end StyleObject
end AtomicStyles
