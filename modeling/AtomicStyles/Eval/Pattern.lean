import AtomicStyles.Eval.Property

/-!
# Names and patterns

Reading and assigning names, binding the names of patterns, and the declarations that
hold from the start of a scope.

## Main definitions

* `Eval.read`, `Eval.write` — a name where it is seen.
* `Eval.bindPattern` — binds the names of a pattern.
* `Stmt.varNames`, `Eval.hoist` — what a scope declares before its code runs.
-/

namespace AtomicStyles

open Script

/-- How the names of a declaration behave. -/
def BindKind.ofVar : VarKind → BindKind
  | .var => .var
  | .lexical => .lexical
  | .const => .const

/-! ### Names declared by `var` -/

namespace Script

/-- The names that a declaration adds to the function around it. -/
def Decl.varNames : Decl → List Ident
  | .var .var ds false => Declarator.names ds
  | _ => []

/-- The names that the left side of a loop adds to the function around it. -/
def ForHead.varNames (head : ForHead) (p : Pat) : List Ident :=
  match head with
  | .decl .var => p.names
  | _ => []

mutual

/-- The names declared by `var` in a statement, nested functions apart. -/
def Stmt.varNames : Stmt → List Ident
  | .decl d => d.varNames
  | .block ss => Stmt.varNamesList ss
  | .ifElse _ yes no => yes.varNames ++ Stmt.varNamesOption no
  | .forLoop init _ _ body => Stmt.varNamesOption init ++ body.varNames
  | .forIn head p _ body => head.varNames p ++ body.varNames
  | .forOf head p _ body _ => head.varNames p ++ body.varNames
  | .whileLoop _ body => body.varNames
  | .doLoop body _ => body.varNames
  | .labeled _ body => body.varNames
  | .tryCatch ss _ handler finalizer =>
    Stmt.varNamesList ss ++ Stmt.varNamesBody handler ++ Stmt.varNamesBody finalizer
  | .switch _ cases => Stmt.varNamesCases cases
  | .expr _ _ => []
  | .empty => []
  | .debugger => []
  | .ret _ => []
  | .breakTo _ => []
  | .continueTo _ => []
  | .throwing _ => []

/-- `Stmt.varNames` of several statements. -/
def Stmt.varNamesList : List Stmt → List Ident
  | [] => []
  | s :: ss => s.varNames ++ Stmt.varNamesList ss

/-- `Stmt.varNames` of a statement that can be missing. -/
def Stmt.varNamesOption : Option Stmt → List Ident
  | none => []
  | some s => s.varNames

/-- `Stmt.varNames` of a block that can be missing. -/
def Stmt.varNamesBody : Body → List Ident
  | .absent => []
  | .block ss => Stmt.varNamesList ss
  | .value _ => []

/-- `Stmt.varNames` of the clauses of a `switch`. -/
def Stmt.varNamesCases : List Case → List Ident
  | [] => []
  | .mk _ ss :: cs => Stmt.varNamesList ss ++ Stmt.varNamesCases cs

end

end Script

namespace Eval

/-! ### Reading and assigning names -/

/-- The value of a name. One that no frame declares is looked up in the module. -/
def read (r : Interp) (s : Scope) (name : String) : Eval Value := do
  match ← lookup s name with
  | some { value := some v, .. } => return v
  | some { value := none, .. } => throw (.uninitialized name)
  | none => r.topLevel s.module name

/-- Assigns to a name that has been found, or fails as `missing` says. -/
def writeOr (missing : Eval Unit) (s : Scope) (name : String) (v : Value) : Eval Unit := do
  match ← assign s name v with
  | .assigned isTop => if isTop then recordWrite
  | .constant => raise (.constantAssignment name)
  | .uninitialized => throw (.uninitialized name)
  | .missing => missing

/-- Assigns to a name. A declaration of the module that has not been evaluated yet is evaluated
first. -/
def write (r : Interp) (s : Scope) (name : String) (v : Value) : Eval Unit :=
  writeOr (do
    let t ← tables s.module
    if t.declarations.contains name then
      let _ ← r.topLevel s.module name
      writeOr (throw .endless) { module := s.module } name v
    else if t.imports.contains name then raise (.importAssignment name)
    else throw (.unavailable (.assignment name))) s name v

/-! ### Functions -/

/-- What runs when a function is called. -/
def functionCode (body : Body) (isAsync isGenerator : Bool) : FunctionCode :=
  if isAsync then .unsupported .asyncFunction
  else if isGenerator then .unsupported .generatorFunction
  else
    match body with
    | .block ss => .block ss
    | .value e => .value e
    | .absent => .unsupported .bodilessFunction

/-- A new function with the syntax that functions and methods have in common. -/
def newFunc (s : Scope) (name : Option String) : Func → Eval Value
  | .mk _ params body isAsync isGenerator =>
    newFunction
      (.defined { name, params, code := functionCode body isAsync isGenerator, scope := s })

def newArrow (s : Scope) (params : List Pat) (body : Body) (isAsync : Bool) : Eval Value :=
  newFunc s none (.mk [] params body isAsync false)

/-! ### Keys -/

def propertyKey (r : Interp) (s : Scope) : Key → Eval String
  | .name n => return n
  | .str n => return n
  | .num x => return Decimal.text x
  | .computed e => do text (← r.expr s e)
  | .bigInt => unsupported .bigIntKey
  | .hidden => unsupported .privateName

/-! ### Patterns -/

/-- Binds a name. One declared by `var` is assigned where the scopes around declare it. -/
def bindName (s : Scope) (kind : BindKind) (name : String) (v : Value) : Eval Unit := do
  match kind with
  | .lexical => declare s name (some v) true
  | .const => declare s name (some v) false
  | .var =>
    match ← assign s name v with
    | .assigned _ => return ()
    | _ => declare s name (some v) true

/-- A value, or that of a default in place of one that is undefined. -/
def orDefault (r : Interp) (s : Scope) (default : Option Expr) (v : Value) : Eval Value :=
  match v, default with
  | .undefined, some e => r.expr s e
  | v, _ => return v

/-- Binds the items of an array pattern to values. The pattern that collects the rest ends it. -/
def bindItems (r : Interp) (s : Scope) (kind : BindKind) : List Pat → List Value → Eval Unit
  | [], _ => return ()
  | .hole :: ps, vs => bindItems r s kind ps (vs.drop 1)
  | .rest p :: _, vs => do r.bind s kind p (← newArray vs.toArray)
  | p :: ps, vs => do
    r.bind s kind p (vs.head?.getD .undefined)
    bindItems r s kind ps (vs.drop 1)

/-- Binds the properties of an object pattern; `used` holds the keys that have been taken. -/
def bindProperties (r : Interp) (s : Scope) (kind : BindKind) (v : Value) :
    List String → List PatProperty → Eval Unit
  | _, [] => return ()
  | used, .keyValue key p :: ps => do
    let key ← propertyKey r s key
    r.bind s kind p (← getProperty r v key)
    bindProperties r s kind v (key :: used) ps
  | used, .shorthand id default :: ps => do
    bindName s kind id.name (← orDefault r s default (← getProperty r v id.name))
    bindProperties r s kind v (id.name :: used) ps
  | used, .rest p :: ps => do
    let others := (← entries r v).filter fun e => !used.contains e.1
    r.bind s kind p (← newObject ⟨others⟩)
    bindProperties r s kind v used ps

/-- Binds the names of a pattern to the parts of a value. -/
def bindPattern (r : Interp) (s : Scope) (kind : BindKind) : Pat → Value → Eval Unit
  | .ident id, v => bindName s kind id.name v
  | .withDefault p e, v => do r.bind s kind p (← orDefault r s (some e) v)
  | .array ps, v => do bindItems r s kind ps (← iterate v)
  | .object ps, v => do
    if v.isNullish then raise (.destructure (← text v))
    else bindProperties r s kind v [] ps
  | .rest p, v => r.bind s kind p v
  | .decorated _ p, v => r.bind s kind p v
  | .expr _, _ => unsupported .expressionPattern
  | .hole, _ => unsupported .expressionPattern

/-- Binds a parameter to the first of the arguments that are left, or to all of them. -/
def bindParam (r : Interp) (s : Scope) (vs : List Value) : Pat → Eval Unit
  | .rest p => do r.bind s .lexical p (← newArray vs.toArray)
  | .decorated _ (.rest p) => do r.bind s .lexical p (← newArray vs.toArray)
  | p => r.bind s .lexical p (vs.head?.getD .undefined)

def bindParams (r : Interp) (s : Scope) : List Pat → List Value → Eval Unit
  | [], _ => return ()
  | p :: ps, vs => do
    bindParam r s vs p
    bindParams r s ps (vs.drop 1)

/-! ### What holds from the start of a scope -/

/-- Declares the names of `var` declarations that the scope does not have yet. -/
def declareVars (s : Scope) (names : List Ident) : Eval Unit :=
  names.forM fun id => do
    unless (← ownSlot s id.name).isSome do
      declare s id.name (some .undefined) true

/-- Declares what a declaration makes known from the start: functions are there, the other
names are still without a value. -/
def hoistDecl (s : Scope) : Decl → Eval Unit
  | .func id f false => do declare s id.name (some (← newFunc s (some id.name) f)) true
  | .var .var _ _ => return ()
  | .var kind ds false =>
    (Declarator.names ds).forM fun id => declare s id.name none (kind != .const)
  | .cls id _ false => declare s id.name none true
  | .enum id _ false => declare s id.name none false
  | _ => return ()

/-- Declares what statements make known from the start of their scope. -/
def hoist (s : Scope) (ss : List Stmt) : Eval Unit :=
  ss.forM fun
    | .decl d => hoistDecl s d
    | _ => return ()

end Eval
end AtomicStyles
