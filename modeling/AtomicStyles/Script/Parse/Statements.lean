import AtomicStyles.Script.Parse.Markup

/-!
# Parsing: statements and declarations
-/

namespace AtomicStyles
namespace Script

open Parse

/-! ### Variables -/

/-- Whether a `for … in` or `for … of` loop goes on here. -/
def atEach : Parse Bool := return (← token).isWordOf ["of", "in"]

/-- A declared variable, and whether it has a type. A constant and a pattern need a value, unless
they stand in a loop that gives them one. -/
def declarator (r : Rules) (kind : VarKind) (inLoop : Bool) : Parse (Declarator × Bool) := do
  let isLet ← isWord "let"
  let p ← r.pattern
  require (!(isLet && kind ≠ .var))
  let isName := match p with
    | .ident _ => true
    | _ => false
  if (← isTyped) && isName then
    let _ ← eatPunct "!"
  let hasType := (← isTyped) && (← isPunct ":")
  optionalType r
  if inLoop && (← atEach) then return (.mk p none, hasType)
  else if ← eatPunct "=" then return (.mk p (some (← r.assign)), hasType)
  else
    if !(← context).inDeclare then
      require (kind ≠ .const)
      guarded (isName || kind = .const)
    return (.mk p none, hasType)

/-- Declared variables after the word that introduces them. -/
def declarators (r : Rules) (kind : VarKind) (inLoop : Bool) :
    Parse (List (Declarator × Bool)) := do
  let first ← declarator r kind inLoop
  let more ← many do
    if ← eatPunct "," then return some (← declarator r kind inLoop) else return none
  return first :: more

/-- Whether a token can start what `let` declares. -/
def Token.startsBinding (t : Token) : Bool :=
  t.isIdent || t.isPunctOf ["[", "\x7b"]
    || t.isWordOf ["let", "yield", "await", "enum", "implements", "interface", "package", "private",
      "protected", "public"]

/-- The kind of the variables that the current word declares, if it declares any. -/
def varKind? : Parse (Option VarKind) := do
  if ← isWord "var" then return some .var
  else if ← isWord "const" then return some .const
  else if ← isWord "let" then return if (← peek).1.startsBinding then some .lexical else none
  else return none

/-- Declared variables from the word that introduces them to the end of the statement. -/
def variableDecl (r : Rules) (kind : VarKind) (isDeclare : Bool) : Parse Decl := do
  advance
  let ds ← Rules.withIn (declarators r kind false)
  semicolon
  return .var kind (ds.map Prod.fst) isDeclare

/-! ### Functions and classes -/

/-- A function declaration; where types are allowed its code may be missing. -/
def functionDecl (r : Rules) (isAsync : Bool) (ds : List Expr) (isDeclare : Bool) : Parse Decl := do
  if isAsync then advance
  word "function"
  let isGenerator ← eatPunct "*"
  let id ← bindingIdentifier
  return .func id (← functionRest r .plain isAsync isGenerator ds) isDeclare

def classDecl (r : Rules) (ds : List Expr) (isAbstract isDeclare : Bool) : Parse Decl := do
  let name := do
    require (!(← isWord "let"))
    pure (some (← bindingIdentifier))
  match ← classFrom r name ds isAbstract with
  | (some id, c) => return .cls id c isDeclare
  | _ => fail

/-- Whether an asynchronous function starts here. -/
def atAsyncFunction : Parse Bool := do
  if ← isWord "async" then peekWordHere "function" else return false

/-! ### Declarations of typed code -/

def enumMember (r : Rules) : Parse EnumMember := do
  let value : Parse (Option Expr) := do
    if ← eatPunct "=" then return some (← r.assign)
    else
      require (← isPunctOf [",", "\x7d"])
      return none
  match ← token with
  | .word w _ =>
    let pos ← offset
    advance
    return .named ⟨w, pos⟩ (← value)
  | .str s =>
    advance
    return .quoted s (← value)
  | .num _ =>
    require false
    advance
    return .quoted "" (← value)
  | .punct "[" =>
    advance
    let _ ← r.expr
    require false
    punct "]"
    return .quoted "" (← value)
  | _ => fail

/-- An enumeration after the word `enum`. -/
def enumRest (r : Rules) (isDeclare : Bool) : Parse Decl := do
  let id ← anyWord
  punct "\x7b"
  let members ← commaList "\x7d" (enumMember r)
  return .enum id members isDeclare

/-- An interface after the word `interface`. -/
def interfaceRest (r : Rules) : Parse Decl := do
  let id ← anyWord
  require (!builtinTypeNames.contains id.name)
  optionalTypeParameters r aliasModifiers
  if ← eatWord "extends" then
    for e in ← heritage r do
      noteExpr e
  typeMembers r
  return .interface id

def aliasRest (r : Rules) : Parse Decl := do
  let id ← anyWord
  optionalTypeParameters r aliasModifiers
  punct "="
  r.type
  semicolon
  return .alias id

def itemBlock (r : Rules) : Parse (List Item) := do
  punct "\x7b"
  let items ← many do
    match ← token with
    | .punct "\x7d" => return none
    | .eof => return none
    | _ => return some (← r.item)
  match ← token with
  | .eof => require false
  | _ => punct "\x7d"
  return items

/-- A namespace after its introducing word: a dotted name and its items. -/
def regionRest (r : Rules) : Nat → Parse Decl
  | 0 => fail
  | fuel + 1 => do
    let id ← anyWord
    if ← eatPunct "." then
      let inner ← regionRest r fuel
      return .region (some id) [.stmt (.decl inner)]
    else return .region (some id) (← itemBlock r)

/-- A module that is named by a string or is the global one, from its name on. -/
def ambientRest (r : Rules) (id : Option Ident) : Parse Decl := do
  if ← isPunct "\x7b" then return .region id (← itemBlock r)
  else
    semicolon
    return .region id []

/-- The declarations that only typed code has, after the word that introduces them; `none` where
that word is a mere name. What follows the word need not be looked at where `isCertain` holds.
`isSameLine` tells whether the word stood on the line of the word before it or had a place of its
own. -/
def typedDecl? (r : Rules) (w : String) (isCertain isSameLine : Bool) (ds : List Expr)
    (isDeclare : Bool) : Parse (Option Decl) := do
  let isNamed := isCertain || (← atIdent)
  match w with
  | "abstract" =>
    if isCertain || ((← isWord "class") && !(← newline)) then
      return some (← classDecl r ds true isDeclare)
    else return none
  | "enum" => if isNamed then return some (← enumRest r isDeclare) else return none
  | "interface" => if isNamed then return some (← interfaceRest r) else return none
  | "module" =>
    if isSameLine then
      match ← token with
      | .str _ =>
        advance
        return some (← ambientRest r none)
      | _ => if isNamed then return some (← regionRest r (← get).limit) else return none
    else return none
  | "namespace" => if isNamed then return some (← regionRest r (← get).limit) else return none
  | "type" =>
    if isCertain || (isNamed && !(← newline)) then return some (← aliasRest r) else return none
  | _ => return none

/-- What is declared after the word `declare`; `none` where nothing is. -/
def declared? (r : Rules) (ds : List Expr) : Parse (Option Decl) := do
  require (!(← context).inDeclare)
  within (fun c => { c with inDeclare := true }) do
    if ← isWord "function" then return some (← functionDecl r false ds true)
    else if ← isWord "class" then return some (← classDecl r ds false true)
    else
      let isEnum ← if ← isWord "const" then peekWord "enum" else pure false
      if isEnum then
        advance
        advance
        return some (← enumRest r true)
      else
        match ← token with
        | .word "const" false => return some (← variableDecl r .const true)
        | .word "var" false => return some (← variableDecl r .var true)
        | .word "let" false => return some (← variableDecl r .lexical true)
        | .word "global" false => return some (← ambientRest r (some (← anyWord)))
        | .word w _ =>
          let isSameLine := !(← newline)
          let before ← get
          advance
          match ← typedDecl? r w true isSameLine ds true with
          | some d => return some d
          | none =>
            set before
            return none
        | _ => return none

/-- Whether a declaration of resources starts here, after the word `using`. -/
def atUsing : Parse Bool := do
  let (next, nextLine) ← peek
  return next.isIdent && !nextLine

/-- A declaration of resources from the word `using` on. Each has a name and a value. -/
def usingRest (r : Rules) : Parse Decl := do
  word "using"
  let ds := (← declarators r .var false).map Prod.fst
  require (ds.all fun
    | .mk (.ident _) (some _) => true
    | _ => false)
  return .using ds

/-! ### Loops -/

/-- The test, the update and the body of a `for` loop after its first semicolon. -/
def forRest (r : Rules) (init : Option Stmt) (body : Parse Stmt) : Parse Stmt := do
  let test ← if ← eatPunct ";" then pure none
    else do
      let e ← Rules.withIn r.expr
      let _ ← eatPunct ";"
      pure (some e)
  let update ← if ← isPunct ")" then pure none else do pure (some (← Rules.withIn r.expr))
  punct ")"
  return .forLoop init test update (← body)

/-- The rest of a `for … in` or `for … of` loop from that word on. -/
def forEachRest (r : Rules) (head : ForHead) (target : Pat) (isAwait : Bool) (body : Parse Stmt) :
    Parse Stmt := do
  if ← eatWord "of" then
    let e ← Rules.withIn r.assign
    punct ")"
    return .forOf head target e (← body) isAwait
  else
    word "in"
    require (!isAwait && head ≠ .using)
    let e ← Rules.withIn r.expr
    punct ")"
    return .forIn head target e (← body)

/-- Whether an expression is the word `using`, with or without `await` before it. -/
def Expr.isUsing : Expr → Bool
  | .ident id => id.name == "using"
  | .await (.ident id) => id.name == "using"
  | _ => false

/-- A `for` loop whose head declares variables, from their word on. -/
def forVariables (r : Rules) (kind : VarKind) (isAwait : Bool) (body : Parse Stmt) :
    Parse Stmt := do
  advance
  let ds ← within (fun c => { c with allowIn := c.allowIn || kind ≠ .var }) do
    declarators r kind true
  if ← atEach then
    match ds with
    | (.mk p e, hasType) :: more =>
      require (more.isEmpty && e.isNone && !hasType)
      forEachRest r (.decl kind) p isAwait body
    | [] => fail
  else
    require (!isAwait)
    punct ";"
    forRest r (some (.decl (.var kind (ds.map Prod.fst) false))) body

/-- A `for` loop whose head starts with an expression. -/
def forExpression (r : Rules) (isAwait : Bool) (body : Parse Stmt) : Parse Stmt := do
  let start ← offset
  let e ← within (fun c =>
    { c with allowIn := false, inLoopHead := true, inAwaitHead := isAwait }) r.expr
  let isUsing ← if (← isTyped) && e.isUsing && !(← isWord "of") then do
      pure ((← peek).1.isWordOf ["of", "in"])
    else pure false
  if isUsing then forEachRest r .using (.ident (← bindingIdentifier)) isAwait body
  else if ← atEach then
    let target ← reinterpret .target e
    if (← isTyped) && (← isWord "in") then
      match target with
      | .ident _ => pure ()
      | .expr _ => pure ()
      | _ => require false
    forEachRest r .assign target isAwait body
  else
    require (!isAwait)
    let stop ← lastStop
    punct ";"
    forRest r (some (.expr e ⟨start, stop⟩)) body

/-- A `for` loop. -/
def forStmt (r : Rules) (body : Parse Stmt) : Parse Stmt := do
  word "for"
  let isAwait ← eatWord "await"
  punct "("
  if ← isPunct ";" then
    require (!isAwait)
    advance
    forRest r none body
  else
    match ← varKind? with
    | some kind => forVariables r kind isAwait body
    | none => forExpression r isAwait body

/-! ### Other statements -/

def loopBody (r : Rules) : Parse Stmt :=
  within (fun c => { c with canBreak := true, canContinue := true }) (r.stmt false)

def test (r : Rules) : Parse Expr := do
  punct "("
  let e ← Rules.withIn r.expr
  punct ")"
  return e

/-- The label after `break` or `continue`. -/
def jumpLabel : Parse (Option Ident) := do
  if ← atEnd then return none else return some (← identifier)

/-- A clause of a `switch`. -/
def switchCase (r : Rules) : Parse Case := do
  let e ← if ← eatWord "case" then do pure (some (← Rules.withIn r.expr))
    else do
      word "default"
      pure none
  punct ":"
  let stmts ← many do
    match ← token with
    | .eof => return none
    | t =>
      if t.isPunct "\x7d" || t.isWordOf ["case", "default"] then return none
      else return some (← r.stmt true)
  return .mk e stmts

/-- The number of clauses without a test. -/
def defaultCases (cases : List Case) : Nat :=
  (cases.filter fun
    | .mk none _ => true
    | _ => false).length

/-- A `try` statement. -/
def tryStmt (r : Rules) : Parse Stmt := do
  word "try"
  let body ← block r
  let (param, handler) ← if ← eatWord "catch" then do
      let p ← if ← eatPunct "(" then do
          let p ← r.pattern
          optionalType r
          punct ")"
          pure p
        else pure .hole
      pure (p, Body.block (← block r))
    else pure (.hole, .absent)
  let finalizer ← if ← eatWord "finally" then do pure (Body.block (← block r)) else pure .absent
  match handler, finalizer with
  | .absent, .absent => require false
  | _, _ => pure ()
  return .tryCatch body param handler finalizer

/-- A labelled statement after its colon. -/
def labeledRest (r : Rules) (id : Ident) : Parse Stmt := do
  let c ← context
  let body ← within (fun c => { c with canBreak := true, labels := id.name :: c.labels }) do
    if ← isWord "function" then
      let d ← functionDecl r false [] false
      require false
      return .decl d
    else r.stmt false
  require (!c.labels.contains id.name)
  return .labeled id body

/-- What a statement that starts with a name can be in typed code, after the name. -/
def namedDecl? (r : Rules) (id : Ident) (ds : List Expr) : Parse (Option Decl) := do
  match id.name with
  | "declare" => declared? r ds
  | "global" =>
    if ← isPunct "\x7b" then return some (.region (some id) (← itemBlock r)) else return none
  | w => typedDecl? r w false (!(← newline)) ds false

/-- An expression as a statement, a labelled statement, or a declaration that starts with a name. -/
def expressionStmt (r : Rules) (ds : List Expr) : Parse Stmt := do
  let start ← offset
  let e ← Rules.withIn r.expr
  match e with
  | .ident id =>
    if ← eatPunct ":" then labeledRest r id
    else
      match ← (if ← isTyped then namedDecl? r id ds else pure none) with
      | some d => return .decl d
      | none =>
        require (id.name != "enum" && id.name != "interface")
        semicolon
        return .expr e ⟨start, ← lastStop⟩
  | e =>
    semicolon
    return .expr e ⟨start, ← lastStop⟩

/-- A statement that is introduced by a keyword. -/
def keywordStmt (r : Rules) (w : String) : Parse Stmt := do
  match w with
  | "debugger" =>
    advance
    semicolon
    return .debugger
  | "return" =>
    advance
    let e ← if ← atEnd then pure none else do pure (some (← Rules.withIn r.expr))
    semicolon
    require (← context).inFunction
    return .ret e
  | "if" =>
    advance
    let e ← test r
    let yes ← r.stmt false
    let no ← if ← eatWord "else" then do pure (some (← r.stmt false)) else pure none
    return .ifElse e yes no
  | "while" =>
    advance
    let e ← test r
    return .whileLoop e (← loopBody r)
  | "do" =>
    advance
    let body ← loopBody r
    word "while"
    let e ← test r
    let _ ← eatPunct ";"
    return .doLoop body e
  | "for" => forStmt r (loopBody r)
  | "break" =>
    advance
    let label ← jumpLabel
    semicolon
    let c ← context
    require (c.canBreak && label.all fun id => c.labels.contains id.name)
    return .breakTo label
  | "continue" =>
    advance
    let label ← jumpLabel
    semicolon
    let c ← context
    require (c.canContinue && label.all fun id => c.labels.contains id.name)
    return .continueTo label
  | "throw" =>
    advance
    guarded (!(← newline))
    let e ← Rules.withIn r.expr
    semicolon
    return .throwing e
  | "try" => tryStmt r
  | "switch" =>
    advance
    let e ← test r
    punct "\x7b"
    let cases ← within (fun c => { c with canBreak := true }) <| many do
      if (← token).isWordOf ["case", "default"] then return some (← switchCase r)
      else return none
    punct "\x7d"
    require (defaultCases cases ≤ 1)
    return .switch e cases
  | _ => fail

/-- The words that introduce statements. -/
def stmtWords : List String :=
  ["debugger", "return", "if", "while", "do", "for", "break", "continue", "throw", "try", "switch",
    "with"]

/-- A declaration that starts with a word of its own, if one does. -/
def wordDecl? (r : Rules) (canDeclare : Bool) (ds : List Expr) (w : String) :
    Parse (Option Decl) := do
  let typed ← isTyped
  let (next, nextLine) ← peek
  match w with
  | "const" =>
    if typed && next.isWord "enum" then
      advance
      advance
      return some (← enumRest r false)
    else
      guarded canDeclare
      return some (← variableDecl r .const false)
  | "function" =>
    require canDeclare
    return some (← functionDecl r false ds false)
  | "class" =>
    require canDeclare
    return some (← classDecl r ds false false)
  | "var" => return some (← variableDecl r .var false)
  | "let" =>
    if canDeclare && next.startsBinding then return some (← variableDecl r .lexical false)
    else return none
  | "using" =>
    if typed && canDeclare && (← atUsing) then return some (← usingRest r) else return none
  | "async" =>
    if next.isWord "function" && !nextLine then return some (← functionDecl r true ds false)
    else return none
  | w =>
    if typed && ["interface", "type", "enum"].contains w && next.isName && !nextLine then
      advance
      match w with
      | "interface" => return some (← interfaceRest r)
      | "type" => return some (← aliasRest r)
      | _ => return some (← enumRest r false)
    else return none

/-- A statement that starts with the word `await`: a declaration of resources, or an expression,
which nothing need end. -/
def awaitStmt (r : Rules) : Parse Stmt := do
  let start ← offset
  let isResource ← if ← peekWord "using" then do
      advance
      atUsing
    else pure false
  if isResource then
    guarded (← isTyped)
    return .decl (← usingRest r)
  else
    let operand ← awaitExpr r
    let e ← Rules.withIn (binaryRest r operand 0 (← get).limit)
    let _ ← eatPunct ";"
    return .expr e ⟨start, ← lastStop⟩

/-- A statement with decorators before it; declarations only where `canDeclare` says so. -/
def stmtFrom (r : Rules) (canDeclare : Bool) (ds : List Expr) : Parse Stmt :=
  within (fun c => { c with expectColon := false }) do
    match ← token with
    | .punct "\x7b" => return .block (← block r)
    | .punct ";" =>
      advance
      return .empty
    | .word w false =>
      if stmtWords.contains w then keywordStmt r w
      else if w == "await" && canDeclare then awaitStmt r
      else
        match ← wordDecl? r canDeclare ds w with
        | some d => return .decl d
        | none => expressionStmt r ds
    | _ => expressionStmt r ds

/-- An expression that starts with the word `import`, as a statement; nothing need end it. -/
def importStmt (r : Rules) : Parse Stmt := do
  let start ← offset
  guarded ((← peek).1.isPunctOf ["(", "."])
  let e ← r.expr
  let _ ← eatPunct ";"
  return .expr e ⟨start, ← lastStop⟩

/-- A statement; declarations only where `canDeclare` says so. -/
def stmtRule (r : Rules) (canDeclare : Bool) : Parse Stmt := do
  let ds ← decorators r
  if ← isWord "import" then importStmt r
  else
    guarded (!(← isWord "export"))
    stmtFrom r canDeclare ds

end Script
end AtomicStyles
