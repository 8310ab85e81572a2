import AtomicStyles.Eval.Modules
import AtomicStyles.Style.Value

/-!
# Evaluation

The parts of evaluation, tied together. Each part may call the others, and the nesting of
these calls is bounded: code nests no deeper than its syntax between two calls, calls
spend steps, a declaration that is being evaluated is not evaluated again, and re-exports
that pass through more names than there are lead back to themselves.

## Main definitions

* `interp` — evaluation whose parts call each other less than `fuel` deep.
* `Machine.start` — a machine before the first style call.
* `Eval.detach` — a value as plain data.
* `PlainProperty` — a property whose key is plain to see.
* `Eval.evalStyles` — the argument of a style call.
* `Eval.runCall` — the evaluation of a style call.
-/

namespace AtomicStyles

open Script Eval

def interp : Nat → Interp
  | 0 => .endless
  | fuel + 1 =>
    { expr := fun s e m => evalExpr (interp fuel) s e m
      stmt := fun s stmt m => runStmt (interp fuel) s stmt m
      bind := fun s kind p v m => bindPattern (interp fuel) s kind p v m
      call := fun f args m => callFunction (interp fuel) f args m
      topLevel := fun id name m => topLevelValue (interp fuel) id name m
      exported := fun id name m => exportValue (interp fuel) id name m }

namespace Machine

def start (g : Graph) (limits : Limits) (cache : ModuleCache) : Machine :=
  { graph := g, limits, cache, nesting := (limits.steps + g.limit) * g.limit }

/-- The machine ready for the next style call. -/
def reset (m : Machine) : Machine :=
  { m with steps := m.limits.steps, depth := 0, floor := m.stamps, exception := none }

end Machine

namespace Eval

def convertEach (r : Interp) (convert : Value → Eval StyleValue) (v : Value) :
    Eval (List (String × StyleValue)) := do
  (← entries r v).mapM fun e => return (e.1, ← convert e.2)

/-- A value as plain data, in which objects and arrays nest less than `depth` deep. -/
def detach (r : Interp) : Nat → Value → Eval StyleValue
  | 0, _ => throw (.type .deepStyle)
  | depth + 1, v => do
    match v with
    | .undefined => return .undefined
    | .null => return .null
    | .bool b => return .bool b
    | .number x => return .number x
    | .string s => return .string s
    | .function _ _ => return .function
    | .array a => return .array (← (← items a).toList.mapM (detach r depth))
    | v => return .object (← convertEach r (detach r depth) v)

end Eval

/-- Why a style call has no value, and the keys of its argument that have none. -/
structure CallFailure where
  error : EvalError
  keys : List String := []

/-- The failure of a style call once one more key has failed: the first error counts. -/
def CallFailure.add (failure : Option CallFailure) (key : String) (error : EvalError) :
    CallFailure :=
  match failure with
  | some f => { f with keys := f.keys ++ [key] }
  | none => { error, keys := [key] }

/-! ### The argument of a style call -/

/-- A property that is written with a plain key, and so has its key before it is evaluated. -/
inductive PlainProperty where
  | keyValue (key : String) (e : Expr)
  | shorthand (name : String)

namespace PlainProperty

/-- A property as a plain one, if its key is a name, a text or a number. -/
def ofProperty? : Property → Option PlainProperty
  | .keyValue (.name n) e => some (.keyValue n e)
  | .keyValue (.str n) e => some (.keyValue n e)
  | .keyValue (.num x) e => some (.keyValue (Decimal.text x) e)
  | .shorthand id => some (.shorthand id.name)
  | _ => none

def key : PlainProperty → String
  | keyValue key _ => key
  | shorthand name => name

def value (r : Interp) (s : Scope) : PlainProperty → Eval Value
  | keyValue _ e => r.expr s e
  | shorthand name => read r s name

end PlainProperty

namespace Eval

/-- The properties of an object that is written with plain keys. -/
def plainProperties (e : Expr) : Option (List PlainProperty) :=
  match e.unwrapped with
  | .object ps => ps.mapM PlainProperty.ofProperty?
  | _ => none

/-- Evaluates properties one by one. A failure does not keep the others from being evaluated,
unless a limit was reached or there is nothing after it; the first one counts. -/
def evalEach (r : Interp) (s : Scope) (ps : Properties) (failure : Option CallFailure) :
    List PlainProperty → Eval (Except CallFailure Properties)
  | [] =>
    match failure with
    | some f => return .error f
    | none => return .ok ps
  | p :: rest => do
    match ← outcome (p.value r s) with
    | .ok v => evalEach r s (ps.insert p.key v) failure rest
    | .error error =>
      if error.isEndless then throw error
      else if error.isExhaustion then return .error (.add failure p.key error)
      else evalEach r s ps (some (.add failure p.key error)) rest

/-- A failure that is about no key in particular. -/
def asFailure {α : Type} (x : Eval α) : Eval (Except CallFailure α) := do
  match ← outcome x with
  | .ok a => return .ok a
  | .error error => return .error { error }

/-- The value of the argument of a style call. An object with plain keys is evaluated key by key,
so that all keys that fail are known. -/
def evalStyles (r : Interp) (s : Scope) (e : Expr) : Eval (Except CallFailure Value) := do
  match plainProperties e with
  | some ps =>
    match ← evalEach r s {} none ps with
    | .ok ps => return .ok (← newObject ps)
    | .error f => return .error f
  | none => asFailure (r.expr s e)

/-! ### Style calls -/

/-- The module that the style calls stand in. -/
def unit : Eval ModuleId := return (← get).graph.entry.id

/-- Makes the machine ready for the next style call. -/
def reset : Eval Unit := modify Machine.reset

/-- Evaluates what a key stands for, if that can be done. -/
def tryForce (r : Interp) (key : BindingKey) : Eval Unit := do
  let result ← outcome (force r key)
  if endsNever result then conclude result

/-- What a style call comes to on a machine that is ready for it: first what it needs is
evaluated, then its argument. What fails at first fails again when the argument reads it. -/
def callValue (r : Interp) (argument : Expr) (needed : List BindingKey) :
    Eval (Except CallFailure StyleValue) := do
  needed.forM (tryForce r)
  match ← evalStyles r { module := ← unit } argument with
  | .error f => return .error f
  | .ok v => asFailure (detach r (maxValueDepth + 1) v)

def runCall (r : Interp) (argument : Expr) (needed : List BindingKey) :
    Eval (Except CallFailure StyleValue) := do
  reset
  callValue r argument needed

end Eval
end AtomicStyles
