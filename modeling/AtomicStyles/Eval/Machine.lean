import AtomicStyles.Eval.Value

/-!
# The machine of evaluated code

What evaluated code works on: its objects, arrays and frames of names, the modules that
have been entered, and the counters that bound and observe it. The style calls of one
unit share a machine, so that a module is initialized once. A write that a later style
call could notice is counted.

## Main definitions

* `Machine` — the state of evaluation.
* `Eval` — a computation on the machine that can fail; a failure keeps the machine.
* `Eval.tick` — spends a step.
* `Eval.newObject`, `Eval.newArray`, `Eval.newFunction`, `Eval.newFrame` — allocation.
* `Machine.find?`, `Eval.assign` — names.
-/

namespace AtomicStyles

/-- How far one style call may go. -/
structure Limits where
  steps : Nat := 100000
  depth : Nat := 64
deriving Repr, DecidableEq, Inhabited

/-- An object or an array with its history. -/
structure Cell (α : Type) where
  content : α
  isFrozen : Bool := false
  /-- How many objects and arrays were there before. -/
  stamp : Nat
  /-- Whether it was made while a module was initialized, and so outlives the style call. -/
  isShared : Bool

/-- The properties of an object, in the order in which they were first set. -/
abbrev Properties := OrderedMap String Value

/-- A name in a frame. -/
structure Slot where
  /-- Missing until the declaration has run. -/
  value : Option Value
  isMutable : Bool

/-- The names that one scope declares. -/
abbrev Frame := OrderedMap String Slot

/-- How far the top-level code of a module has come. -/
inductive ModuleStatus where
  | pending
  | running
  | done
  | failed (e : EvalError)

/-- How far the top-level code of a module has come once it has run. -/
def ModuleStatus.ofResult {α : Type} : Except EvalError α → ModuleStatus
  | .ok _ => .done
  | .error e => .failed e

/-- How far a declaration that is evaluated by itself has come. -/
inductive BindingStatus where
  | evaluating
  | ready
  | failed (e : EvalError)

/-- What has become of a module. -/
structure Instance where
  /-- The names at its top level that have been declared. -/
  names : Frame := {}
  status : ModuleStatus := .pending
  bindings : OrderedMap String BindingStatus := {}

/-- How often each module was run and each declaration evaluated. -/
structure Report where
  modules : OrderedMap ModuleId Nat := {}
  bindings : OrderedMap BindingKey Nat := {}
  /-- Whether the style calls were evaluated a second time. -/
  isRetried : Bool := false

structure Machine where
  graph : Graph
  limits : Limits
  /-- How deep evaluation can nest before it is known not to end. -/
  nesting : Nat
  cache : ModuleCache
  instances : OrderedMap ModuleId Instance := {}
  /-- The global objects that have been asked for. -/
  globals : List (GlobalObject × Value) := []
  /-- The value of the exception that is on its way. -/
  exception : Option Value := none
  objects : Array (Cell Properties) := #[]
  arrays : Array (Cell (Array Value)) := #[]
  frames : Array Frame := #[]
  functions : Nat := 0
  /-- How many objects and arrays have been made. -/
  stamps : Nat := 0
  /-- The steps that are left. -/
  steps : Nat := 0
  /-- How many calls are going on. -/
  depth : Nat := 0
  /-- What was made before this stamp was there before the current style call. -/
  floor : Nat := 0
  /-- How many modules are being initialized. -/
  initializing : Nat := 0
  /-- How many writes a later style call could notice. -/
  mutations : Nat := 0
  /-- What has begun to be evaluated, latest first. -/
  begun : List BindingKey := []
  report : Report := {}

namespace Machine

/-- A cell with the next stamp. -/
def cell {α : Type} (m : Machine) (content : α) : Cell α :=
  { content, stamp := m.stamps, isShared := 0 < m.initializing }

def objectCell (m : Machine) (r : ObjectRef) : Cell Properties :=
  m.objects.getD r.index { content := {}, stamp := 0, isShared := true }

def arrayCell (m : Machine) (r : ArrayRef) : Cell (Array Value) :=
  m.arrays.getD r.index { content := #[], stamp := 0, isShared := true }

/-- What has become of a module; nothing has of one that has not been asked for. -/
def instanceOf (m : Machine) (id : ModuleId) : Instance := (m.instances.get? id).getD {}

/-- Changes what is known about a module. -/
def modifyInstance (m : Machine) (id : ModuleId) (f : Instance → Instance) : Machine :=
  { m with instances := m.instances.insert id (f (m.instanceOf id)) }

theorem instanceOf_modifyInstance (m : Machine) (id id' : ModuleId) (f : Instance → Instance) :
    (m.modifyInstance id f).instanceOf id' =
      if id == id' then f (m.instanceOf id) else m.instanceOf id' := by
  simp only [modifyInstance, instanceOf, OrderedMap.get?_insert]
  split <;> rfl

end Machine

/-- A computation on the machine that can fail. -/
abbrev Eval := EStateM EvalError Machine

namespace Eval

/-- The outcome of a computation, success or failure. -/
def outcome {α : Type} (x : Eval α) : Eval (Except EvalError α) := fun m =>
  match x m with
  | .ok a m => .ok (.ok a) m
  | .error e m => .ok (.error e) m

/-- Ends as an outcome says. -/
def conclude {α : Type} : Except EvalError α → Eval α
  | .ok a => pure a
  | .error e => throw e

/-- Whether an outcome is that there is none. -/
def endsNever {α : Type} : Except EvalError α → Bool
  | .ok _ => false
  | .error e => e.isEndless

/-- Fails for want of a part of the language. -/
def unsupported {α : Type} (what : Unsupported) : Eval α := throw (.unsupported what)

/-- How deep evaluation can nest. -/
def nesting : Eval Nat := return (← get).nesting

def stepsLeft : Eval Nat := return (← get).steps

/-- How far a style call may go. -/
def limits : Eval Limits := return (← get).limits

/-- How many calls are going on. -/
def depth : Eval Nat := return (← get).depth

def tick : Eval Unit := do
  if (← stepsLeft) = 0 then throw (.stepBudget (← limits).steps)
  else modify fun m => { m with steps := m.steps - 1 }

/-- From here on code initializes a module. -/
def beginInitializing : Eval Unit :=
  modify fun m => { m with initializing := m.initializing + 1 }

/-- The code that initializes a module has come to its end. -/
def endInitializing : Eval Unit :=
  modify fun m => { m with initializing := m.initializing - 1 }

/-! ### Allocation -/

def newObject (properties : Properties) : Eval Value :=
  modifyGet fun m =>
    let cell := m.cell properties
    (.object ⟨m.objects.size⟩, { m with objects := m.objects.push cell, stamps := m.stamps + 1 })

def newArray (items : Array Value) : Eval Value :=
  modifyGet fun m =>
    let cell := m.cell items
    (.array ⟨m.arrays.size⟩, { m with arrays := m.arrays.push cell, stamps := m.stamps + 1 })

def newFunction (f : Function) : Eval Value :=
  modifyGet fun m => (.function m.functions f, { m with functions := m.functions + 1 })

def newFrame : Eval Nat :=
  modifyGet fun m => (m.frames.size, { m with frames := m.frames.push {} })

def child (s : Scope) : Eval Scope := do
  let f ← newFrame
  return { s with inner := f :: s.inner }

/-! ### Objects and arrays -/

def properties (r : ObjectRef) : Eval Properties := return ((← get).objectCell r).content

def items (r : ArrayRef) : Eval (Array Value) := return ((← get).arrayCell r).content

/-- Whether the properties of an object cannot be changed. -/
def isFrozenObject (r : ObjectRef) : Eval Bool := return ((← get).objectCell r).isFrozen

/-- Whether the items of an array cannot be changed. -/
def isFrozenArray (r : ArrayRef) : Eval Bool := return ((← get).arrayCell r).isFrozen

def modifyObject (r : ObjectRef) (f : Cell Properties → Cell Properties) : Eval Unit :=
  modify fun m => { m with objects := m.objects.modify r.index f }

def modifyArray (r : ArrayRef) (f : Cell (Array Value) → Cell (Array Value)) : Eval Unit :=
  modify fun m => { m with arrays := m.arrays.modify r.index f }

def modifyProperties (r : ObjectRef) (f : Properties → Properties) : Eval Unit :=
  modifyObject r fun c => { c with content := f c.content }

def modifyItems (r : ArrayRef) (f : Array Value → Array Value) : Eval Unit :=
  modifyArray r fun c => { c with content := f c.content }

/-! ### Writes that outlive a style call -/

end Eval

namespace Machine

/-- Counts a write unless a module is being initialized. -/
def noteWrite (m : Machine) : Machine :=
  if m.initializing = 0 then { m with mutations := m.mutations + 1 } else m

/-- Counts a write to an object or array that a later style call can reach. -/
def noteCellWrite {α : Type} (c : Cell α) (m : Machine) : Machine :=
  if c.stamp < m.floor || c.isShared then m.noteWrite else m

end Machine

namespace Eval

/-- Counts a write unless a module is being initialized. -/
def recordWrite : Eval Unit := modify Machine.noteWrite

/-- Counts a write to an object that a later style call can reach. -/
def recordObjectWrite (r : ObjectRef) : Eval Unit := modify fun m => m.noteCellWrite (m.objectCell r)

/-- Counts a write to an array that a later style call can reach. -/
def recordArrayWrite (r : ArrayRef) : Eval Unit := modify fun m => m.noteCellWrite (m.arrayCell r)

/-! ### Exceptions -/

def newError (kind : ErrorKind) (text : String) : Eval Value :=
  newObject ⟨[("name", .string kind.name), ("message", .string text)]⟩

def exception : Eval (Option Value) := return (← get).exception

/-- Keeps the value of the exception that is on its way. -/
def setException (v : Option Value) : Eval Unit := modify fun m => { m with exception := v }

/-- Throws an exception of the language. -/
def raise {α : Type} (f : Fault) : Eval α := do
  let e ← newError f.kind f.text
  setException (some e)
  throw (.thrown (f.kind.name ++ ": " ++ f.text))

end Eval

/-! ### Names -/

namespace Machine

def frame (m : Machine) : FrameRef → Frame
  | .top id => (m.instanceOf id).names
  | .inner i => m.frames.getD i {}

/-- The nearest frame of some that declares a name, and the name's slot. -/
def find? (m : Machine) (name : String) : List FrameRef → Option (FrameRef × Slot)
  | [] => none
  | f :: fs =>
    match (m.frame f).get? name with
    | some slot => some (f, slot)
    | none => find? m name fs

/-- Creates or replaces a name of a frame. -/
def declare (m : Machine) (f : FrameRef) (name : String) (slot : Slot) : Machine :=
  match f with
  | .top id => m.modifyInstance id fun i => { i with names := i.names.insert name slot }
  | .inner i => { m with frames := m.frames.modify i fun frame => frame.insert name slot }

end Machine

/-- What assigning to a name comes to. -/
inductive Assignment where
  | assigned (isTop : Bool)
  | constant
  | uninitialized
  | missing
deriving Repr, DecidableEq, Inhabited

namespace Eval

/-- The slot of a name in the innermost scope alone. -/
def ownSlot (s : Scope) (name : String) : Eval (Option Slot) :=
  return ((← get).frame s.nearest).get? name

def lookup (s : Scope) (name : String) : Eval (Option Slot) := do
  return ((← get).find? name s.frames).map (·.2)

/-- Declares a name in the innermost scope; without a value it stays uninitialized. -/
def declare (s : Scope) (name : String) (value : Option Value) (isMutable : Bool) : Eval Unit :=
  modify fun m => m.declare s.nearest name { value, isMutable }

/-- Assigns to a name where it is declared. -/
def assign (s : Scope) (name : String) (value : Value) : Eval Assignment := do
  match (← get).find? name s.frames with
  | none => return .missing
  | some (_, { value := none, .. }) => return .uninitialized
  | some (_, { isMutable := false, .. }) => return .constant
  | some (f, { isMutable := true, .. }) =>
    modify fun m => m.declare f name { value := some value, isMutable := true }
    return .assigned (f = s.top)

end Eval
end AtomicStyles
