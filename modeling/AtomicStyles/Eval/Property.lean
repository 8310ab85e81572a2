import AtomicStyles.Eval.Convert

/-!
# Properties

Reading, writing, deleting and listing the properties of values. The keys of an object
come in the order in which they were first set, those of an array and of a text in
ascending order, and those of a module sorted. Reading an export may run the module, so
that reading goes through `Interp`.

## Main definitions

* `Interp` — the parts of evaluation that call one another.
* `Eval.getProperty`, `Eval.setProperty`, `Eval.deleteProperty` — one property.
* `Eval.entries` — all properties.
* `Eval.iterate` — the items of a value that can be iterated.
-/

namespace AtomicStyles

open Script

/-- How the code of a function, loop or block ends. -/
inductive Completion where
  | normal
  | returned (v : Value)
  | broke
  | continued

/-- How a name is declared. -/
inductive BindKind where
  | var
  | lexical
  | const
deriving Repr, DecidableEq, Inhabited

structure Interp where
  expr : Scope → Expr → Eval Value
  stmt : Scope → Stmt → Eval Completion
  /-- Binds the names of a pattern to the parts of a value. -/
  bind : Scope → BindKind → Pat → Value → Eval Unit
  /-- Calls a value with arguments. -/
  call : Value → List Value → Eval Value
  topLevel : ModuleId → String → Eval Value
  exported : ModuleId → String → Eval Value

/-- Evaluation that does not end. -/
def Interp.endless : Interp where
  expr _ _ := throw .endless
  stmt _ _ := throw .endless
  bind _ _ _ _ := throw .endless
  call _ _ := throw .endless
  topLevel _ _ := throw .endless
  exported _ _ := throw .endless

/-- The index that a key of an array stands for: a decimal without leading zeros, below
`2 ^ 64`. -/
def arrayIndex? (key : String) : Option Nat :=
  if !key.isEmpty && key.all Char.isDigit then
    let n := Decimal.ofDigits 10 key.toList
    if toString n = key && n < Nat.pow 2 64 then some n else none
  else none

def unitTexts (s : String) : List Value := (Text.units s).map fun u => .string (Text.ofUnits [u])

namespace Eval

/-! ### Modules -/

/-- Loads a module at the first request for it. -/
def load (id : ModuleId) : Eval (Except LoadError Tables) :=
  modifyGet fun m =>
    let loaded := m.graph.tables id m.cache
    (loaded.1, { m with cache := loaded.2 })

def tables (id : ModuleId) : Eval Tables := do conclude ((← load id).mapError .load)

/-- The names that a module exports, its own before those it re-exports as a whole; `visited`
holds the modules that have been looked at. The name `default` is not passed on. -/
def exportNames : Nat → ModuleId → List ModuleId × List String →
    Eval (List ModuleId × List String)
  | 0, _, _ => throw .endless
  | fuel + 1, id, (visited, names) => do
    if visited.contains id then return (visited, names)
    else
      let t ← tables id
      let own := t.exports.keys.filter fun name => visited.isEmpty || name != "default"
      let names := own.foldl (fun ns name => if ns.contains name then ns else ns ++ [name]) names
      t.stars.foldlM (fun acc star =>
        match star.source with
        | .ok target => exportNames fuel target acc
        | .error _ => return acc) (visited ++ [id], names)

def exportsOf (id : ModuleId) : Eval (List String) := do
  let (_, names) ← exportNames (← nesting) id ([], [])
  return names

/-! ### Reading -/

def functionProperty (f : Function) (key : String) : Eval Value := do
  match f with
  | .builtin b =>
    match b.member? key with
    | some (.function f) => newFunction (.builtin f)
    | some (.constant x) => return .number x
    | none => return .undefined
  | .defined d => return if key = "name" then .string (d.name.getD "") else .undefined
  | _ => return .undefined

/-- A method that is read off a value, if there is one. -/
def method (f : Option Function) : Eval Value := do
  match f with
  | some f => newFunction f
  | none => return .undefined

/-- An export as a property of its module; one that is missing is undefined. -/
def moduleProperty (r : Interp) (id : ModuleId) (key : String) : Eval Value := do
  match ← outcome (r.exported id key) with
  | .error (.missingExport _ _) => return .undefined
  | result => conclude result

def getProperty (r : Interp) (v : Value) (key : String) : Eval Value := do
  match v with
  | .undefined => raise (.readNullish "undefined" key)
  | .null => raise (.readNullish "null" key)
  | .object o =>
    match (← properties o).get? key with
    | some value => return value
    | none => method ((ObjectMethod.ofName? key).map (.ofObject o))
  | .array a =>
    if key = "length" then return .number (← items a).size.toFloat
    else
      match arrayIndex? key with
      | some i => return (← items a).getD i .undefined
      | none => method ((ListMethod.ofName? key).map (.ofArray a))
  | .string s =>
    if key = "length" then return .number (Text.unitCount s).toFloat
    else
      match arrayIndex? key with
      | some i => return (unitTexts s).getD i .undefined
      | none => method ((TextMethod.ofName? key).map (.ofText s))
  | .number x => method ((NumberMethod.ofName? key).map (.ofNumber x))
  | .bool b => if key = "toString" then newFunction (.ofBool b) else return .undefined
  | .function _ f => functionProperty f key
  | .module id => moduleProperty r id key

/-! ### Writing -/

/-- Changes the properties of an object unless it is frozen; the change is counted. -/
def changeProperties (o : ObjectRef) (frozen : Fault) (f : Properties → Properties) :
    Eval Unit := do
  if ← isFrozenObject o then raise frozen
  else
    recordObjectWrite o
    modifyProperties o f

/-- Checks and counts a change of an array. -/
def beforeArrayWrite (a : ArrayRef) : Eval Unit := do
  if ← isFrozenArray a then raise .frozenArray
  else recordArrayWrite a

/-- Changes the items of an array unless it is frozen. What becomes of them is found after the change
has been counted. -/
def changeArray (a : ArrayRef) (change : Eval (Array Value → Array Value)) : Eval Unit := do
  beforeArrayWrite a
  modifyItems a (← change)

/-- An array cut or filled up to a length. -/
def resize (n : Nat) (xs : Array Value) : Array Value :=
  if n ≤ xs.size then xs.take n else xs ++ Array.replicate (n - xs.size) .undefined

/-- How far beyond the end of an array an item can be set. -/
def maxGap : Nat := 10000

def setItem (a : ArrayRef) (key : String) (v : Value) : Eval Unit := changeArray a do
  if key = "length" then
    let n ← number v
    if n < 0.0 || !(Decimal.truncate n == n) || 1e6 < n then raise .arrayLength
    else return resize (Decimal.toNat n)
  else
    match arrayIndex? key with
    | none => unsupported .namedArrayProperty
    | some i =>
      let size := (← items a).size
      if size + maxGap ≤ i then unsupported .sparseArray
      else return fun xs => (if xs.size ≤ i then resize (i + 1) xs else xs).setIfInBounds i v

/-- Sets a property. Those of plain values are lost. -/
def setProperty (target : Value) (key : String) (v : Value) : Eval Unit := do
  match target with
  | .object o => changeProperties o (.frozenProperty key) fun ps => ps.insert key v
  | .array a => setItem a key v
  | .undefined => raise (.writeNullish "undefined" key)
  | .null => raise (.writeNullish "null" key)
  | .module _ => raise (.moduleProperty key)
  | .function _ _ => unsupported .functionProperty
  | .bool _ => return ()
  | .number _ => return ()
  | .string _ => return ()

/-- Deletes a property; an item of an array becomes undefined. -/
def deleteProperty (target : Value) (key : String) : Eval Value := do
  match target with
  | .object o =>
    changeProperties o (.frozenDelete key) fun ps => ps.erase key
    return .bool true
  | .array a =>
    match arrayIndex? key with
    | some i =>
      changeArray a (return fun xs => xs.setIfInBounds i .undefined)
      return .bool true
    | none => return .bool true
  | .undefined => raise (.deleteNullish "undefined")
  | .null => raise (.deleteNullish "null")
  | _ => return .bool true

/-! ### Listing -/

/-- Values under their indices. -/
def indexed (vs : List Value) : List (String × Value) :=
  vs.zipIdx.map fun (v, i) => (toString i, v)

/-- The properties of a value, in their order. -/
def entries (r : Interp) (v : Value) : Eval (List (String × Value)) := do
  match v with
  | .object o => return (← properties o).entries
  | .array a => return indexed (← items a).toList
  | .string s => return indexed (unitTexts s)
  | .module id =>
    let names ← exportsOf id
    (names.mergeSort fun a b => a ≤ b).mapM fun name => return (name, ← r.exported id name)
  | _ => return []

/-- The items of a value: those of an array, or the characters of a text. -/
def iterate (v : Value) : Eval (List Value) := do
  match v with
  | .array a => return (← items a).toList
  | .string s => return s.toList.map fun c => .string c.toString
  | v => raise (.notIterable (← text v))

def hasProperty (key container : Value) : Eval Bool := do
  let key ← text key
  match container with
  | .object o => return (← properties o).contains key
  | .array a =>
    let size := (← items a).size
    return key = "length" || (arrayIndex? key).any (· < size)
  | .module id => return (← exportsOf id).contains key
  | v => raise (.notContainer key (← text v))

end Eval
end AtomicStyles
