import AtomicStyles.Eval.Expressions

/-!
# Statements

Every statement and every turn of a loop spends a step, so that the steps that are left
bound the turns of a loop.

## Main definitions

* `Eval.evalEnum` — the object of an enumeration.
* `Eval.turns` — a loop.
* `Eval.runTry` — exceptions that are caught.
* `Eval.runStmt` — a statement.
-/

namespace AtomicStyles

open Script

namespace Script

def EnumMember.text : EnumMember → String
  | .named id _ => id.name
  | .quoted s _ => s

/-- The test of a clause of a `switch`. -/
def Case.test : Case → Option Expr
  | .mk test _ => test

/-- The statements of a clause of a `switch`. -/
def Case.stmts : Case → List Stmt
  | .mk _ ss => ss

end Script

namespace Eval

/-! ### Declarations -/

/-- The value of a member of an enumeration; one that is not written out is the next number. -/
def memberValue (r : Interp) (s : Scope) (next : Option Float) (init : Option Expr) : Eval Value :=
  match init, next with
  | some e, _ => r.expr s e
  | none, some x => return .number x
  | none, none => unsupported .enumAfterText

/-- The members of an enumeration as properties. A member without a value follows on the number
before it, and each number leads back to its name. -/
def enumMembers (r : Interp) (s : Scope) (next : Option Float) (ps : Properties) :
    List EnumMember → Eval Properties
  | [] => return ps
  | member :: members => do
    let name := member.text
    let v ← memberValue r s next member.init
    declare s name (some v) false
    let ps := ps.insert name v
    match v with
    | .number x =>
      enumMembers r s (some (x + 1.0)) (ps.insert (Decimal.text x) (.string name)) members
    | _ => enumMembers r s none ps members

def evalEnum (r : Interp) (s : Scope) (members : List EnumMember) : Eval Value := do
  let inner ← child s
  newObject (← enumMembers r inner (some 0.0) {} members)

/-- Runs declarators. One of `var` without a value does nothing. -/
def runDeclarators (r : Interp) (s : Scope) (kind : VarKind) (ds : List Declarator) : Eval Unit :=
  ds.forM fun d => do
    match d.init, kind with
    | some e, _ => r.bind s (.ofVar kind) d.pat (← r.expr s e)
    | none, .var => return ()
    | none, _ => r.bind s (.ofVar kind) d.pat .undefined

def runDecl (r : Interp) (s : Scope) : Decl → Eval Unit
  | .var kind ds false => runDeclarators r s kind ds
  | .enum id members false => do declare s id.name (some (← evalEnum r s members)) false
  | .cls _ _ false => unsupported .classDeclaration
  | .using _ => unsupported .usingDeclaration
  | _ => return ()

/-! ### Blocks -/

/-- Runs the statements of a block in a scope of their own. -/
def runBlock (r : Interp) (s : Scope) (ss : List Stmt) : Eval Completion := do
  let inner ← child s
  hoist inner ss
  runStmts r inner ss

def runBody (r : Interp) (s : Scope) : Body → Eval Completion
  | .block ss => runBlock r s ss
  | _ => return .normal

/-! ### Loops -/

/-- What a turn of a loop leads to. -/
inductive Turn (σ : Type) where
  | next (state : σ)
  | stop (c : Completion)

/-- Takes turns until one stops the loop. -/
def turnsFrom {σ : Type} (turn : σ → Eval (Turn σ)) : Nat → σ → Eval Completion
  | 0, _ => throw .endless
  | fuel + 1, state => do
    match ← turn state with
    | .next state => turnsFrom turn fuel state
    | .stop c => return c

/-- A loop each turn of which spends a step. -/
def turns {σ : Type} (turn : σ → Eval (Turn σ)) (state : σ) : Eval Completion := do
  turnsFrom (fun state => do tick; turn state) ((← stepsLeft) + 1) state

/-- How a loop goes on after its body: it stops, or does what `next` says. -/
def afterBody {σ : Type} (c : Completion) (next : Eval (Turn σ)) : Eval (Turn σ) :=
  match c with
  | .broke => return .stop .normal
  | .returned v => return .stop (.returned v)
  | .normal => next
  | .continued => next

/-- A loop that tests first. -/
def runWhile (r : Interp) (s : Scope) (test : Expr) (body : Stmt) : Eval Completion :=
  turns (fun _ => do
    if (← r.expr s test).isTrue then afterBody (← r.stmt s body) (return .next ())
    else return .stop .normal) ()

/-- A loop that tests last. -/
def runDo (r : Interp) (s : Scope) (body : Stmt) (test : Expr) : Eval Completion :=
  turns (fun _ => do
    afterBody (← r.stmt s body) do
      return if (← r.expr s test).isTrue then .next () else .stop .normal) ()

/-- The scope of the next turn of a loop with names of its own: functions made in this turn keep
this turn's names. -/
def nextScope (outer current : Scope) (names : List Ident) : Eval Scope := do
  if names.isEmpty then return current
  else
    let s ← child outer
    names.forM fun id => do
      if let some slot ← ownSlot current id.name then declare s id.name slot.value slot.isMutable
    return s

/-- The names of a declaration that are new in each turn of a `for` loop. -/
def turnNames : Decl → List Ident
  | .var .var _ _ => []
  | .var _ ds _ => Declarator.names ds
  | _ => []

/-- Runs the first part of a `for` loop; gives the names that are new in each turn. -/
def runForInit (r : Interp) (s : Scope) : Option Stmt → Eval (List Ident)
  | some (.decl d) => do
    runDecl r s d
    return turnNames d
  | some (.expr e _) => do
    let _ ← r.expr s e
    return []
  | _ => return []

/-- Whether the test of a `for` loop holds; one that is missing does. -/
def testHolds (r : Interp) (s : Scope) : Option Expr → Eval Bool
  | some e => return (← r.expr s e).isTrue
  | none => return true

/-- Runs the last part of a `for` loop. -/
def runUpdate (r : Interp) (s : Scope) : Option Expr → Eval Unit
  | some e => do let _ ← r.expr s e
  | none => return ()

/-- A `for` loop with three parts. -/
def runFor (r : Interp) (s : Scope) (init : Option Stmt) (test update : Option Expr)
    (body : Stmt) : Eval Completion := do
  let first ← child s
  let names ← runForInit r first init
  turns (fun current => do
    if ← testHolds r current test then
      afterBody (← r.stmt current body) do
        let next ← nextScope s current names
        runUpdate r next update
        return .next next
    else return .stop .normal) first

/-- Binds or assigns what the left side of a loop over items names. -/
def bindHead (r : Interp) (s : Scope) (head : ForHead) (p : Pat) (v : Value) : Eval Unit :=
  match head, p with
  | .decl kind, p => r.bind s (.ofVar kind) p v
  | .using, _ => unsupported .usingDeclaration
  | .assign, .ident id => write r s id.name v
  | .assign, .expr e => do writePlace r s (← place r s e) v
  | .assign, _ => unsupported .loopDestructuring

/-- A loop over items. -/
def runEach (r : Interp) (s : Scope) (head : ForHead) (p : Pat) (body : Stmt) :
    List Value → Eval Completion
  | [] => return .normal
  | v :: vs => do
    tick
    let inner ← child s
    bindHead r inner head p v
    match ← r.stmt inner body with
    | .broke => return .normal
    | .returned v => return .returned v
    | _ => runEach r s head p body vs

/-! ### Exceptions -/

/-- A thrown value in words: an object with a message by its name and message. -/
def describe (v : Value) : Eval String := do
  match v with
  | .object o =>
    let ps ← properties o
    match ps.get? "message" with
    | some message =>
      let name ← match ps.get? "name" with
        | some name => text name
        | none => pure "Error"
      return name ++ ": " ++ (← text message)
    | none => text v
  | v => text v

def throwValue {α : Type} (v : Value) : Eval α := do
  let description ← describe v
  setException (some v)
  throw (.thrown description)

/-- The value that a handler is given: what was thrown, or an error object that tells the
failure. -/
def caught (e : EvalError) : Eval Value := do
  match e, ← exception with
  | .thrown _, some v =>
    setException none
    return v
  | .type _, _ => newError .type e.message
  | _, _ => newError .error e.message

/-- Binds the parameter of a handler, if there is one. -/
def bindCaught (r : Interp) (s : Scope) (v : Value) : Pat → Eval Unit
  | .hole => return ()
  | p => r.bind s .lexical p v

/-- How a block with a handler ends: as it did by itself, or as the handler of its failure
does. -/
def handle (r : Interp) (s : Scope) (param : Pat) (handler : Body)
    (result : Except EvalError Completion) : Eval (Except EvalError Completion) := do
  match result, handler with
  | .error e, .block hs =>
    if e.isCatchable then
      let v ← caught e
      let inner ← child s
      bindCaught r inner v param
      outcome (runBlock r inner hs)
    else return .error e
  | result, _ => return result

/-- Runs a finalizer, unless there is nothing after what it follows. -/
def finalize (r : Interp) (s : Scope) (finalizer : Body) (result : Except EvalError Completion) :
    Eval Completion := do
  if endsNever result then conclude result
  else
    match ← runBody r s finalizer with
    | .normal => conclude result
    | other => return other

/-- A statement with a handler, a finalizer, or both. The finalizer is left out when the value
does not fit the handler's parameter. -/
def runTry (r : Interp) (s : Scope) (ss : List Stmt) (param : Pat) (handler finalizer : Body) :
    Eval Completion := do
  finalize r s finalizer (← handle r s param handler (← outcome (runBlock r s ss)))

/-! ### Choice -/

/-- The clauses of a `switch` from the first one whose test gives the value. -/
def matchingCases (r : Interp) (s : Scope) (v : Value) : List Case → Eval (Option (List Case))
  | [] => return none
  | c :: cs => do
    match c.test with
    | none => matchingCases r s v cs
    | some e =>
      if (← r.expr s e).strictEquals v then return some (c :: cs) else matchingCases r s v cs

/-- The clauses of a `switch` from the one without a test. -/
def defaultCases (cs : List Case) : List Case := cs.dropWhile fun c => c.test.isSome

/-- Runs clauses one into the next. -/
def runCases (r : Interp) (s : Scope) : List Case → Eval Completion
  | [] => return .normal
  | c :: cs => do
    match ← runStmts r s c.stmts with
    | .normal => runCases r s cs
    | .broke => return .normal
    | other => return other

def runSwitch (r : Interp) (s : Scope) (e : Expr) (cases : List Case) : Eval Completion := do
  let v ← r.expr s e
  let start := (← matchingCases r s v cases).getD (defaultCases cases)
  if start.isEmpty then return .normal
  else
    let inner ← child s
    cases.forM fun c => hoist inner c.stmts
    runCases r inner start

/-! ### Statements -/

def runStmt (r : Interp) (s : Scope) (stmt : Stmt) : Eval Completion := do
  tick
  match stmt with
  | .expr e _ =>
    let _ ← r.expr s e
    return .normal
  | .decl d =>
    runDecl r s d
    return .normal
  | .block ss => runBlock r s ss
  | .empty => return .normal
  | .debugger => return .normal
  | .ret none => return .returned .undefined
  | .ret (some e) => return .returned (← r.expr s e)
  | .ifElse test yes no =>
    if (← r.expr s test).isTrue then r.stmt s yes
    else
      match no with
      | some no => r.stmt s no
      | none => return .normal
  | .breakTo none => return .broke
  | .continueTo none => return .continued
  | .breakTo (some _) => unsupported .label
  | .continueTo (some _) => unsupported .label
  | .labeled _ _ => unsupported .label
  | .throwing e => throwValue (← r.expr s e)
  | .tryCatch ss param handler finalizer => runTry r s ss param handler finalizer
  | .whileLoop test body => runWhile r s test body
  | .doLoop body test => runDo r s body test
  | .forLoop init test update body => runFor r s init test update body
  | .forOf head p e body isAwait =>
    if isAwait then unsupported .forAwait
    else runEach r s head p body (← iterate (← r.expr s e))
  | .forIn head p e body =>
    let keys ← entries r (← r.expr s e)
    runEach r s head p body (keys.map fun (key, _) => .string key)
  | .switch e cases => runSwitch r s e cases

end Eval
end AtomicStyles
