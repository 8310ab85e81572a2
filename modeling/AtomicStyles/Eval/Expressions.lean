import AtomicStyles.Eval.Builtins
import AtomicStyles.Eval.Pattern

/-!
# Expressions and calls

## Main definitions

* `Expr.unwrapped` — an expression without the parentheses and types around it.
* `Place`, `Eval.place` — what an assignment writes to.
* `Eval.evalExpr` — the value of an expression.
* `Eval.callFunction` — a call.
-/

namespace AtomicStyles

open Script

/-- An expression without the parentheses and type assertions around it. -/
def Script.Expr.unwrapped : Expr → Expr
  | .paren e => e.unwrapped
  | .typed _ e => e.unwrapped
  | e => e

/-- What an assignment writes to. -/
inductive Place where
  | name (n : String)
  | property (object : Value) (key : String)

namespace Eval

/-! ### Parts of expressions -/

/-- The values of items or arguments, those that are spread in their places. -/
def evalItems (r : Interp) (s : Scope) : List Expr → Eval (List Value)
  | [] => return []
  | .hole :: es => return .undefined :: (← evalItems r s es)
  | .spread e _ :: es => do
    let vs ← iterate (← r.expr s e)
    return vs ++ (← evalItems r s es)
  | e :: es => do
    let v ← r.expr s e
    return v :: (← evalItems r s es)

/-- The text of a template: texts and substitutions in turn. -/
def evalTemplate (r : Interp) (s : Scope) : List String → List Expr → Eval String
  | [], _ => return ""
  | t :: ts, [] => return t ++ (← evalTemplate r s ts [])
  | t :: ts, e :: es => do
    let v ← text (← r.expr s e)
    return t ++ v ++ (← evalTemplate r s ts es)

/-- Adds a property of an object literal. -/
def evalProperty (r : Interp) (s : Scope) (ps : Properties) : Property → Eval Properties
  | .spread e _ => do
    let es ← entries r (← r.expr s e)
    return es.foldl (fun ps (key, v) => ps.insert key v) ps
  | .shorthand id => return ps.insert id.name (← read r s id.name)
  | .keyValue key e => do
    let key ← propertyKey r s key
    return ps.insert key (← r.expr s e)
  | .method key f => do
    let key ← propertyKey r s key
    return ps.insert key (← newFunc s (some key) f)
  | .getter _ _ => unsupported .accessor
  | .setter _ _ _ => unsupported .accessor
  | .shorthandDefault _ _ => unsupported .shorthandDefault

def evalSequence (r : Interp) (s : Scope) (es : List Expr) : Eval Value :=
  es.foldlM (fun _ e => r.expr s e) .undefined

/-! ### Assignment -/

def propertyPlace (r : Interp) (s : Scope) (obj : Expr) (key : Key) : Eval Place := do
  let v ← r.expr s obj
  return .property v (← propertyKey r s key)

def place (r : Interp) (s : Scope) (e : Expr) : Eval Place :=
  match e.unwrapped with
  | .ident id => return .name id.name
  | .member obj key => propertyPlace r s obj key
  | _ => unsupported .assignmentTarget

def targetPlace (r : Interp) (s : Scope) : Pat → Eval Place
  | .ident id => return .name id.name
  | .expr e => place r s e
  | _ => unsupported .destructuringAssignment

def readPlace (r : Interp) (s : Scope) : Place → Eval Value
  | .name n => read r s n
  | .property v key => getProperty r v key

def writePlace (r : Interp) (s : Scope) (p : Place) (v : Value) : Eval Unit :=
  match p with
  | .name n => write r s n v
  | .property target key => setProperty target key v

/-- Whether an operator that decides by its left operand gives that operand. -/
def keepsLeft : BinaryOp → Value → Option Bool
  | .and, v => some !v.isTrue
  | .or, v => some v.isTrue
  | .coalesce, v => some !v.isNullish
  | _, _ => none

def evalAssign (r : Interp) (s : Scope) (op : AssignOp) (target : Pat) (e : Expr) :
    Eval Value := do
  let p ← targetPlace r s target
  match op with
  | .set =>
    let v ← r.expr s e
    writePlace r s p v
    return v
  | .update op =>
    let old ← readPlace r s p
    match keepsLeft op old with
    | some true => return old
    | some false =>
      let v ← r.expr s e
      writePlace r s p v
      return v
    | none =>
      let v ← binary hasProperty op old (← r.expr s e)
      writePlace r s p v
      return v

def evalUpdate (r : Interp) (s : Scope) (isIncrement isBefore : Bool) (e : Expr) : Eval Value := do
  let p ← place r s e
  let old ← number (← readPlace r s p)
  let new := if isIncrement then old + 1.0 else old - 1.0
  writePlace r s p (.number new)
  return .number (if isBefore then new else old)

/-! ### Operators -/

/-- The value of a unary operator. The type of a global name that has no meaning is that of
undefined. -/
def evalUnary (r : Interp) (s : Scope) (op : UnaryOp) (e : Expr) : Eval Value := do
  match op, e with
  | .typeOf, .ident id =>
    match ← outcome (read r s id.name) with
    | .error (.unavailable _) => return .string Value.undefined.typeName
    | result => return .string (← conclude result).typeName
  | .delete, e =>
    match e.unwrapped with
    | .member obj key =>
      let v ← r.expr s obj
      deleteProperty v (← propertyKey r s key)
    | _ => return .bool true
  | op, e => unary op (← r.expr s e)

def evalBinary (r : Interp) (s : Scope) (op : BinaryOp) (left right : Expr) : Eval Value := do
  let v ← r.expr s left
  match keepsLeft op v with
  | some true => return v
  | some false => r.expr s right
  | none => binary hasProperty op v (← r.expr s right)

/-! ### Calls -/

/-- Runs the code of a function in a scope that has its parameters. -/
def runCode (r : Interp) (s : Scope) (stmts : List Stmt → Eval Completion) :
    FunctionCode → Eval Value
  | .value e => r.expr s e
  | .unsupported why => unsupported why
  | .block ss => do
    declareVars s (Stmt.varNamesList ss)
    hoist s ss
    match ← stmts ss with
    | .returned v => return v
    | _ => return .undefined

/-- Runs statements in turn until one ends otherwise than normally. -/
def runStmts (r : Interp) (s : Scope) : List Stmt → Eval Completion
  | [] => return .normal
  | stmt :: ss => do
    match ← r.stmt s stmt with
    | .normal => runStmts r s ss
    | other => return other

/-- Calls a function that evaluated code has defined. It sees itself under its name. -/
def invoke (r : Interp) (self : Value) (d : Definition) (args : List Value) : Eval Value := do
  let s ← child d.scope
  if let some name := d.name then declare s name (some self) true
  bindParams r s d.params args
  runCode r s (runStmts r s) d.code

/-- Runs a call one level deeper. -/
def nested {α : Type} (x : Eval α) : Eval α := do
  if (← limits).depth ≤ (← depth) then throw (.callDepth (← limits).depth)
  else
    modify fun m => { m with depth := m.depth + 1 }
    let result ← outcome x
    modify fun m => { m with depth := m.depth - 1 }
    conclude result

def callFunction (r : Interp) (f : Value) (args : List Value) : Eval Value := do
  tick
  match f with
  | .function _ (.builtin b) => callBuiltin r b args
  | .function _ (.ofText t m) => callText r t m args
  | .function _ (.ofArray a m) => callList r a m args
  | .function _ (.ofNumber x m) => callNumber x m args
  | .function _ (.ofObject o m) => callObject o m args
  | .function _ (.ofBool b) => return .string (← text (.bool b))
  | .function id (.defined d) => nested (invoke r (.function id (.defined d)) d args)
  | f => raise (.notCallable (← text f))

def evalCall (r : Interp) (s : Scope) (callee : Expr) (args : List Expr) : Eval Value := do
  match callee with
  | .superRef => unsupported .specialCall
  | .importRef => unsupported .specialCall
  | callee =>
    let f ← r.expr s callee
    r.call f (← evalItems r s args)

/-- The value of a `new` expression; only error objects can be made. -/
def evalConstruct (r : Interp) (s : Scope) (callee : Expr) (args : List Expr) : Eval Value := do
  let f ← r.expr s callee
  let vs ← evalItems r s args
  match f with
  | .function _ (.builtin (.error kind)) => callBuiltin r (.error kind) vs
  | .function _ _ => unsupported .constructor
  | f => raise (.notConstructor (← text f))

/-- The value of a link of an optional chain; `none` when the chain ended early. -/
def evalChain (r : Interp) (s : Scope) : Expr → Eval (Option Value)
  | .chainMember isOptional obj key => do
    match ← evalChain r s obj with
    | none => return none
    | some v =>
      if isOptional && v.isNullish then return none
      else return some (← getProperty r v (← propertyKey r s key))
  | .chainCall isOptional callee args => do
    match ← evalChain r s callee with
    | none => return none
    | some f =>
      if isOptional && f.isNullish then return none
      else return some (← r.call f (← evalItems r s args))
  | e => return some (← r.expr s e)

/-! ### Expressions -/

def evalExpr (r : Interp) (s : Scope) (e : Expr) : Eval Value := do
  match e with
  | .str t => return .string t
  | .num x => return .number x
  | .bool b => return .bool b
  | .null => return .null
  | .bigInt => unsupported .bigIntLiteral
  | .regex => unsupported .regularExpression
  | .ident id => read r s id.name
  | .template texts substitutions => return .string (← evalTemplate r s texts substitutions)
  | .array es => newArray (← evalItems r s es).toArray
  | .object ps => newObject (← ps.foldlM (evalProperty r s) {})
  | .paren e => r.expr s e
  | .typed _ e => r.expr s e
  | .instantiated e => r.expr s e
  | .sequence es => evalSequence r s es
  | .cond test yes no =>
    if (← r.expr s test).isTrue then r.expr s yes else r.expr s no
  | .unary op e => evalUnary r s op e
  | .update isIncrement isBefore e => evalUpdate r s isIncrement isBefore e
  | .binary op left right => evalBinary r s op left right
  | .assign op target e => evalAssign r s op target e
  | .member obj key =>
    let v ← r.expr s obj
    getProperty r v (← propertyKey r s key)
  | .chainMember _ _ _ => return (← evalChain r s e).getD .undefined
  | .chainCall _ _ _ => return (← evalChain r s e).getD .undefined
  | .call callee args _ => evalCall r s callee args
  | .construct callee args => evalConstruct r s callee args
  | .func name f => newFunc s (name.map Ident.text) f
  | .arrow params body isAsync => newArrow s params body isAsync
  | .this => unsupported .this
  | .cls _ _ => unsupported .classExpression
  | .tagged _ _ => unsupported .taggedTemplate
  | .await _ => unsupported .suspension
  | .yield _ => unsupported .suspension
  | .markup _ => unsupported .markup
  | .tagName _ => unsupported .markup
  | .hole => unsupported .otherExpression
  | .spread _ _ => unsupported .otherExpression
  | .superMember _ => unsupported .otherExpression
  | .superRef => unsupported .otherExpression
  | .importRef => unsupported .otherExpression
  | .metaProperty => unsupported .otherExpression
  | .privateName => unsupported .otherExpression

end Eval
end AtomicStyles
