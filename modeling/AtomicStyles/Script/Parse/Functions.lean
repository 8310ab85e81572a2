import AtomicStyles.Script.Parse.Types

/-!
# Parsing: functions and classes
-/

namespace AtomicStyles
namespace Script

open Parse

/-! ### Code in braces -/

/-- Statements up to a closing brace, which is read. -/
def statements (r : Rules) : Parse (List Stmt) := do
  let stmts ← many do
    match ← token with
    | .punct "\x7d" => return none
    | .eof => return none
    | _ => return some (← r.stmt true)
  match ← token with
  | .eof => require false
  | _ => punct "\x7d"
  return stmts

def block (r : Rules) : Parse (List Stmt) := do
  punct "\x7b"
  statements r

/-- The characters of a source from a byte offset on; `pos` is the offset of the first
character. -/
def charsFrom (stop pos : Nat) : List Char → List Char
  | [] => []
  | c :: cs => if stop ≤ pos then c :: cs else charsFrom stop (pos + c.utf8Size) cs

/-- Whether a directive at the head of some code makes it strict; it has to be spelt without
escapes. `c` stands before the code. -/
def hasStrictDirective (c : Cursor) : List Stmt → Bool
  | .expr (.str _) span :: rest =>
    let chars := charsFrom span.start c.pos c.chars
    "'use strict'".toList.isPrefixOf chars || "\"use strict\"".toList.isPrefixOf chars
      || hasStrictDirective c rest
  | _ => false

/-! ### Functions -/

/-- The kinds of functions that differ in what surrounds their code. -/
inductive FunctionKind where
  | plain
  | arrow
  | method
deriving DecidableEq

/-- The context of a function, its parameters included. -/
def functionContext (kind : FunctionKind) (isAsync isGenerator : Bool) (c : Context) : Context :=
  match kind with
  | .plain => { c with hasSuper := false, inField := false, expectColon := false, inAsync := isAsync,
                       inGenerator := isGenerator }
  | .method => { c with hasSuper := true, inField := false, inAsync := isAsync,
                        inGenerator := isGenerator }
  | .arrow => c

def parameterContext (c : Context) : Context := { c with inParameters := true, inFunction := false }

def bodyContext (kind : FunctionKind) (isAsync isGenerator : Bool) (c : Context) : Context :=
  { c with
    inFunction := true, inAsync := isAsync, inGenerator := isGenerator
    hasNewTarget := c.hasNewTarget || kind ≠ .arrow
    canBreak := false, canContinue := false, labels := [] }

/-- The code of a function in braces. What is only declared has none. -/
def functionBody (r : Rules) (kind : FunctionKind) (isAsync isGenerator : Bool)
    (params : List Pat) : Parse (List Stmt) := do
  require (!(← context).inDeclare)
  let start := (← get).start
  let stmts ← within (bodyContext kind isAsync isGenerator) (block r)
  require (isSimpleList params || !hasStrictDirective start stmts)
  return stmts

/-- The code of a function, which can be missing where types are allowed. -/
def optionalBody (r : Rules) (kind : FunctionKind) (isAsync isGenerator : Bool)
    (params : List Pat) : Parse Body := do
  if (← isTyped) && !(← isPunct "\x7b") && (← atEnd) then
    semicolon
    require (!params.any Pat.hasDefault)
    return .absent
  else
    return .block (← Rules.withIn (functionBody r kind isAsync isGenerator params))

def functionRest (r : Rules) (kind : FunctionKind) (isAsync isGenerator : Bool)
    (ds : List Expr) : Parse Func :=
  within (functionContext kind isAsync isGenerator) do
    optionalTypeParameters r functionModifiers
    let params ← within parameterContext (parameters r)
    optionalReturnType r
    let body ← optionalBody r kind isAsync isGenerator params
    return .mk ds params body isAsync isGenerator

def arrowBody (r : Rules) (isAsync : Bool) (params : List Pat) : Parse Body := do
  if ← isPunct "\x7b" then return .block (← functionBody r .arrow isAsync false params)
  else within (bodyContext .arrow isAsync false) do return .value (← r.assign)

def Func.hasBody : Func → Bool
  | .mk _ _ .absent _ _ => false
  | _ => true

def Func.params : Func → List Pat
  | .mk _ ps _ _ _ => ps

def Func.body : Func → Body
  | .mk _ _ b _ _ => b

/-- A function expression after the word `async`, if any. -/
def functionExpr (r : Rules) (isAsync : Bool) : Parse Expr := do
  word "function"
  let isGenerator ← eatPunct "*"
  let name ← within (fun c => { c with inAsync := isAsync, inGenerator := isGenerator }) optionalName
  let f ← functionRest r .plain isAsync isGenerator []
  guarded f.hasBody
  return .func name f

/-- Requires that a reading accessor has no parameters. -/
def checkGetter (f : Func) : Parse Unit := require (withoutThis f.params).isEmpty

/-- Requires that a writing accessor has one parameter, which does not collect the rest. -/
def checkSetter (f : Func) : Parse Unit := do
  require ((withoutThis f.params).length = 1)
  require (!f.params.head?.any Pat.isRest)

/-! ### Members of classes -/

/-- What stands before the key of a class member. -/
structure MemberHead where
  decorators : List Expr := []
  isDeclared : Bool := false
  hasAccess : Bool := false
  isStatic : Bool := false
  isAbstract : Bool := false
  isOverride : Bool := false
  isReadonly : Bool := false
  isOptional : Bool := false

def memberKey (r : Rules) : Parse Key := do
  if ← isPunct "#" then
    let id ← privateName
    require (id.name != "constructor")
    return .hidden
  else propertyKey r

/-- Whether a key spells `constructor`. -/
def Key.isConstructor : Key → Bool
  | .name s => s == "constructor"
  | .str s => s == "constructor"
  | _ => false

def Key.isHidden : Key → Bool
  | .hidden => true
  | _ => false

def Key.isNamed (w : String) : Key → Bool
  | .name s => s == w
  | _ => false

/-- Whether the parameters of a method follow. -/
def atMethod : Parse Bool := do
  if ← isPunct "(" then return true else return (← isTyped) && (← isPunct "<")

/-- Whether a field ends or goes on here; `orLineEnd` tells whether the end of a line is an end. -/
def atField (orLineEnd : Bool) : Parse Bool := do
  if (← isTyped) && (← isPunctOf ["!", ":"]) then return true
  else if ← isPunctOf ["=", "\x7d", ";"] then return true
  else return orLineEnd && (← atEnd)

def optionalMark : Parse Bool := do
  if ← isTyped then eatPunct "?" else return false

/-- A method of a class from its parameters on. -/
def methodRest (r : Rules) (head : MemberHead) (key : Key) (isAsync isGenerator : Bool) :
    Parse Member := do
  let f ← functionRest r .method isAsync isGenerator head.decorators
  if key.isHidden then require (!head.hasAccess)
  else require (!head.isAbstract || (!f.hasBody && (← context).inAbstract))
  return .method key f

def fieldRest (r : Rules) (head : MemberHead) (key : Key) : Parse Member := do
  require (!key.isConstructor)
  if key.isHidden then require (!head.isDeclared && !head.isAbstract && !head.hasAccess)
  else require (!head.isAbstract || (← context).inAbstract)
  if (← isTyped) && !head.isOptional then
    let _ ← eatPunct "!"
  optionalType r
  let value ← if ← eatPunct "=" then do
      require (!head.isAbstract)
      pure (some (← within (fun c => { c with allowIn := true, inField := true }) r.assign))
    else pure none
  require (← atEnd)
  let _ ← eatPunct ";"
  return .field key value head.decorators

def constructorRest (r : Rules) (head : MemberHead) (key : Key) : Parse Member := do
  require (!(← isTyped) || !(head.isOverride || head.isStatic || head.isAbstract))
  if ← isPunct "<" then
    require false
    typeParameters r functionModifiers
  punct "("
  let params ← parameterItems r true
  punct ")"
  if (← isTyped) && (← isPunct ":") then
    require false
    optionalType r
  let pats := params.map Prod.fst
  let body ← optionalBody r .method false false pats
  match body with
  | .absent => require (!params.any Prod.snd)
  | _ => pure ()
  return .constructor key pats body

/-- A method, accessor or field, after the modifiers before its key. -/
def memberRest (r : Rules) (head : MemberHead) : Parse Member := do
  if ← eatPunct "*" then
    let key ← memberKey r
    require (!head.isReadonly && !key.isConstructor)
    methodRest r head key false true
  else
    let key ← if head.isReadonly && (← isPunctOf ["!", ":"]) then pure (Key.name "readonly")
      else memberKey r
    let head := { head with isOptional := ← optionalMark }
    if ← atMethod then
      require (!head.isDeclared)
      guarded (!head.isReadonly)
      if key.isConstructor then constructorRest r head key else methodRest r head key false false
    else
      let startsGenerator := (← newline) && (← isPunct "*")
      let isAccessor ← if key.isNamed "get" || key.isNamed "set" then do
          pure (!(← atField false) && !startsGenerator)
        else pure false
      if !isAccessor && (← atField true) then fieldRest r head key
      else if key.isNamed "async" && !(← newline) then
        if (← modifier? ["override"]).isSome then require false
        let isGenerator ← eatPunct "*"
        let key ← memberKey r
        guarded (!key.isConstructor && !head.isReadonly)
        let isOptional ← if head.isOptional then pure true else optionalMark
        methodRest r { head with isOptional } key true isGenerator
      else
        guarded isAccessor
        let isGetter := key.isNamed "get"
        let key ← memberKey r
        require (!head.isReadonly && !key.isConstructor)
        match ← methodRest r head key false false with
        | .method key f =>
          if isGetter then checkGetter f else checkSetter f
          return .method key f
        | m => return m

/-- The modifiers that can stand before a class member after the word `static`. -/
def lateModifiers (r : MemberHead) : Nat → Parse (MemberHead × Bool)
  | 0 => fail
  | fuel + 1 => do
    let initializes ← if ← isWord "static" then peekPunct "\x7b" else pure false
    if initializes then return (r, false)
    else
      match ← modifier? ["abstract", "readonly", "override", "static"] with
      | some "abstract" =>
        require (!r.isAbstract && !r.isOverride && !r.isReadonly)
        return ((← lateModifiers { r with isAbstract := true } fuel).1, true)
      | some "override" =>
        require (!r.isOverride && !r.isReadonly && !r.isDeclared && (← context).hasBase)
        return ((← lateModifiers { r with isOverride := true } fuel).1, true)
      | some "readonly" =>
        require (!r.isReadonly)
        return ((← lateModifiers { r with isReadonly := true } fuel).1, true)
      | some _ =>
        require (!r.isOverride)
        return ((← lateModifiers { r with isStatic := true } fuel).1, true)
      | none => return (r, false)

def initializer (r : Rules) : Parse Member :=
  within (fun c => { c with inField := true }) do return .initializer (← block r)

/-- A member that is named by a word which elsewhere is a modifier: a method, or a field. The
word has been read. -/
def namedByModifier? (r : Rules) (head : MemberHead) (w : String) (orLineEnd : Bool) :
    Parse (Option Member) := do
  let key : Key := .name w
  if ← atMethod then return some (← methodRest r head key false false)
  else
    let isField ← if (← isTyped) && (← isPunct "?") then pure true else atField orLineEnd
    if isField then
      return some (← fieldRest r { head with isOptional := ← optionalMark } key)
    else return none

/-- A member of a class from the modifiers after `static` on. -/
def staticMember (r : Rules) (head : MemberHead) (isAccessor : Bool) : Parse Member := do
  let (head, isModified) ← lateModifiers head (← get).limit
  if (← isTyped) && !isAccessor then
    let _ ← eatWord "accessor"
  if head.isStatic && (← isPunct "\x7b") then
    require (!head.isDeclared && !head.hasAccess)
    initializer r
  else
    let initializes ← if ← isWord "static" then peekPunct "\x7b" else pure false
    if initializes then
      require (!isModified && !head.isStatic)
      advance
      initializer r
    else
      let index ← if (← isTyped) && !head.isAbstract && !head.isOverride && !head.hasAccess then
          indexSignature? r
        else pure none
      match index with
      | some id => return .indexSignature [id]
      | none => memberRest r head

def classMember (r : Rules) : Parse Member := do
  if ← eatPunct ";" then return .empty
  else
    let ds ← decorators r
    let typed ← isTyped
    let isDeclared ← if typed then eatWord "declare" else pure false
    let access ← modifier? ["public", "protected", "private", "in", "out"]
    require (!(access == some "in" || access == some "out"))
    let isDeclared ← if typed && !isDeclared then eatWord "declare" else pure isDeclared
    let head : MemberHead := { decorators := ds, hasAccess := access.isSome }
    let declared ← if isDeclared then namedByModifier? r head "declare" true else pure none
    match declared with
    | some m => return m
    | none =>
      let isStatic ← eatWord "static"
      let isAccessor ← if typed then eatWord "accessor" else pure false
      let named ← if isStatic then namedByModifier? r head "static" false
        else if isAccessor then namedByModifier? r head "accessor" false
        else pure none
      match named with
      | some m => return m
      | none => staticMember r { head with isDeclared, isStatic } isAccessor

/-! ### Classes -/

/-- How many constructors with code there are. -/
def countConstructors (ms : List Member) : Nat :=
  (ms.filter fun
    | .constructor _ _ (.block _) => true
    | _ => false).length

/-- Names that a class or interface cannot have. -/
def builtinTypeNames : List String :=
  ["any", "bigint", "boolean", "intrinsic", "never", "null", "number", "object", "string", "symbol",
    "unknown", "void"]

def dottedExpr (e : Expr) : Nat → Parse Expr
  | 0 => fail
  | fuel + 1 => do
    if ← eatPunct "." then
      let key ← if ← isPunct "#" then do
          let _ ← privateName
          pure Key.hidden
        else do pure (Key.name (← anyWord).name)
      dottedExpr (.member e key) fuel
    else return e

/-- An interface that a class claims to have or another interface extends: a dotted name with type
arguments. -/
def heritageItem (r : Rules) : Parse Expr := do
  let e ← dottedExpr (.ident (← anyWord)) (← get).limit
  if ← atAngle then splitTypeArguments r
  return e

/-- The interfaces after `implements` or `extends`. -/
def heritage (r : Rules) : Parse (List Expr) :=
  itemsUntil (do
    return (← isPunct "\x7b") || (← isWord "implements") || (← isWord "extends")) (heritageItem r)

def baseClass (r : Rules) : Parse Expr := do
  match ← r.operand with
  | .instantiated e => return e
  | e =>
    if (← isTyped) && (← isPunct "<") then typeArguments r
    return e

/-- A class after its name. -/
def classRest (r : Rules) (ds : List Expr) (isAbstract : Bool) : Parse Class := do
  let typed ← isTyped
  optionalTypeParameters r classModifiers
  let base ← if ← eatWord "extends" then do
      let e ← baseClass r
      if typed then
        if ← eatPunct "," then require (← heritage r).isEmpty
      pure (some e)
    else pure none
  let interfaces ← if typed && (← eatWord "implements") then heritage r else pure []
  punct "\x7b"
  let memberContext (c : Context) : Context :=
    { c with hasBase := base.isSome, hasSuper := true, inAbstract := isAbstract }
  let members ← within memberContext <| many do
    match ← token with
    | .punct "\x7d" => return none
    | .eof => return none
    | _ => return some (← classMember r)
  punct "\x7d"
  require ((← context).inDeclare || countConstructors members ≤ 1)
  return .mk ds members base interfaces

def isClassName (name : Option Ident) : Bool := !name.any fun id => builtinTypeNames.contains id.name

/-- The part of a class that starts with the word `class`; its name is read by `name`. -/
def classFrom (r : Rules) (name : Parse (Option Ident)) (ds : List Expr) (isAbstract : Bool) :
    Parse (Option Ident × Class) :=
  within (fun c => { c with hasNewTarget := true }) do
    word "class"
    let name ← name
    if ← isTyped then require (isClassName name)
    return (name, ← classRest r ds isAbstract)

def classExpr (r : Rules) (ds : List Expr) : Parse Expr := do
  let (name, c) ← classFrom r optionalName ds false
  return .cls name c

end Script
end AtomicStyles
