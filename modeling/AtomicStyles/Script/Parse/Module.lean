import AtomicStyles.Script.Parse.Statements

/-!
# Parsing: module items and whole modules

## Main definitions

* `itemRule` — imports, exports and statements.
* `rules` — all grammar rules, for a given number of nested steps.
* `Module.parse?` — the tree of a source text.
-/

namespace AtomicStyles
namespace Script

open Parse

/-! ### Names in clauses -/

def exportName : Parse ExportName := do
  match ← token with
  | .str s =>
    advance
    return .str s
  | _ => return .ident (← anyWord)

/-- Import attributes, which only typed code has. -/
def importAttributes (r : Rules) : Parse Unit := do
  if (← isTyped) && !(← newline) then
    if (← token).isWordOf ["assert", "with"] then
      advance
      let _ ← objectLiteral r

/-- The names of a specifier and whether the word `type` marks it. -/
structure ClauseNames where
  name : ExportName
  renamed : Option ExportName
  isType : Bool

/-- What follows the word `type` at the head of a specifier, if a name does: `type as` and
`type as as x` mark the name `as`, `type as x` and `type as as` rename `type`. -/
def typeSpecifier (newName : Parse ExportName) (first : Ident) (isTypeClause : Bool) :
    Parse ClauseNames := do
  let name ← anyWord
  if name.name == "as" then
    if (← token).isName then
      let second ← anyWord
      if second.name == "as" && (← token).isName then
        require (!isTypeClause)
        return ⟨.ident name, some (← newName), true⟩
      else return ⟨.ident first, some (.ident second), false⟩
    else
      require (!isTypeClause)
      return ⟨.ident name, none, true⟩
  else
    require (!isTypeClause)
    let renamed ← if ← eatWord "as" then do pure (some (← newName)) else pure none
    return ⟨.ident name, renamed, true⟩

/-- The names of a specifier of an import or export clause; `newName` reads the one after `as`. -/
def clauseNames (newName : Parse ExportName) (isTypeClause : Bool) : Parse ClauseNames := do
  let first ← exportName
  let rest : Parse ClauseNames := do
    let renamed ← if ← eatWord "as" then do pure (some (← newName)) else pure none
    return ⟨first, renamed, false⟩
  match first with
  | .ident id =>
    if (← isTyped) && id.name == "type" && (← token).isName then
      typeSpecifier newName id isTypeClause
    else rest
  | .str _ => rest

/-! ### Imports -/

def importSpecifier (isTypeClause : Bool) : Parse ImportSpecifier := do
  let names ← clauseNames (do return .ident (← bindingIdentifier)) isTypeClause
  match names.name, names.renamed with
  | name, some (.ident id) => return .named id (some name) names.isType
  | .ident id, none => return .named id none names.isType
  | _, _ => fail

def importBindings (isTypeClause : Bool) : Parse (List ImportSpecifier) := do
  if ← eatPunct "*" then
    word "as"
    return [.everything (← bindingIdentifier)]
  else
    punct "\x7b"
    commaList "\x7d" (importSpecifier isTypeClause)

/-- The rest of an import whose target is another module's object or a namespace. -/
def importEqualsRest (id : Ident) : Parse Item := do
  punct "="
  let isRequire ← if ← isWord "require" then peekPunct "(" else pure false
  if isRequire then
    advance
    advance
    let _ ← string
    punct ")"
    semicolon
    return .importEquals id none
  else
    let target ← anyWord
    dottedName identifier
    semicolon
    return .importEquals id (some target)

/-- The source of an import or export clause with its attributes, up to the end of the item. -/
def fromClause (r : Rules) : Parse String := do
  word "from"
  let source ← string
  importAttributes r
  semicolon
  return source

def importRest (r : Rules) (first : List ImportSpecifier) (typeOnly : Bool) : Parse Item := do
  let more ← if first.isEmpty then importBindings typeOnly
    else if ← eatPunct "," then importBindings typeOnly
    else pure []
  return .imports (first ++ more) (← fromClause r) typeOnly

/-- Whether bindings in braces or of a whole module follow. -/
def atBindings : Parse Bool := isPunctOf ["*", "\x7b"]

/-- An import that starts with a name: a default binding, the word `type`, the name of a phase, or
the new name of a namespace. -/
def importNamed (r : Rules) : Parse Item := do
  let typed ← isTyped
  let first ← bindingIdentifier
  if typed && first.name == "type" && (← atBindings) then importRest r [] true
  else
    let (id, typeOnly) ← if typed && first.name == "type" && (← atIdent) then do
        if !(← isWord "from") || (← peekWord "from") then pure (← bindingIdentifier, true)
        else if ← peekPunct "=" then pure (← anyWord, true)
        else pure (first, false)
      else pure (first, false)
    if typed && (← isPunct "=") then importEqualsRest id
    else
      let isPhase := id.name == "source" || id.name == "defer"
      if isPhase && (← atBindings) then importRest r [] typeOnly
      else
        let follows ← if ← atIdent then do pure !(← isWord "from") else pure false
        let follows ← if follows then pure true else peekWord "from"
        let id ← if isPhase && follows then bindingIdentifier else pure id
        importRest r [.default id] typeOnly

def importItem (r : Rules) : Parse Item := do
  word "import"
  match ← token with
  | .str source =>
    advance
    importAttributes r
    semicolon
    return .imports [] source false
  | _ => if ← atIdent then importNamed r else importRest r [] false

/-! ### Exports -/

def exportSpecifier (isTypeClause : Bool) : Parse ExportSpecifier := do
  let names ← clauseNames exportName isTypeClause
  return .named names.name names.renamed names.isType

/-- Words that cannot be the name of a binding that is exported. -/
def unboundWords : List String :=
  ["break", "case", "catch", "class", "const", "continue", "debugger", "default", "delete", "do",
    "else", "enum", "export", "extends", "false", "finally", "for", "function", "if", "import",
    "in", "instanceof", "new", "null", "package", "return", "super", "switch", "this", "throw",
    "true", "try", "typeof", "var", "void", "while", "with"]

/-- Whether a specifier can name a binding of its own module. -/
def isLocalSpecifier : ExportSpecifier → Bool
  | .named (.ident id) _ _ => !unboundWords.contains id.name
  | _ => false

def exportClause (r : Rules) (typeOnly : Bool) : Parse Item := do
  punct "\x7b"
  let specifiers ← commaList "\x7d" (exportSpecifier typeOnly)
  if ← isWord "from" then return .exports specifiers (some (← fromClause r)) typeOnly
  else
    require (specifiers.all isLocalSpecifier)
    let _ ← eatPunct ";"
    return .exports specifiers none typeOnly

def exportAllRest (r : Rules) (typeOnly : Bool) : Parse Item := do
  punct "*"
  let name ← if ← eatWord "as" then do pure (some (← exportName)) else pure none
  let source ← fromClause r
  match name with
  | some name => return .exports [.everything name] (some source) typeOnly
  | none => return .exportAll source typeOnly

def defaultClass (r : Rules) (ds : List Expr) (isAbstract : Bool) : Parse Item := do
  let (name, c) ← classFrom r optionalName ds isAbstract
  return .exportDefaultClass name c

/-- A function that is exported as the default; where types are allowed its code may be
missing. -/
def defaultFunction (r : Rules) (isAsync : Bool) (ds : List Expr) : Parse Item := do
  if isAsync then advance
  word "function"
  let isGenerator ← eatPunct "*"
  let name ← optionalName
  return .exportDefaultFunc name (← functionRest r .plain isAsync isGenerator ds)

/-- The decorators of an exported class, which stand before the word `export` or after it. -/
def exportDecorators (r : Rules) (ds : List Expr) : Parse (List Expr) := do
  if ← isPunct "@" then
    let more ← decorators r
    guarded ds.isEmpty
    return more
  else return ds

/-- What may follow `export default`. -/
def exportDefault (r : Rules) (ds : List Expr) : Parse Item := do
  let typed ← isTyped
  let ds ← exportDecorators r ds
  let isAbstract ← if typed && (← isWord "abstract") then peekWordHere "class" else pure false
  if isAbstract then
    advance
    defaultClass r ds true
  else
    let isAbstract ← if typed && (← isWord "abstract") then peekWord "interface" else pure false
    if isAbstract then
      require false
      advance
    if typed && (← isWord "interface") then
      advance
      match ← interfaceRest r with
      | .interface id => return .exportDefaultInterface id
      | _ => fail
    else if ← isWord "class" then defaultClass r ds false
    else if ← atAsyncFunction then defaultFunction r true ds
    else if ← isWord "function" then defaultFunction r false ds
    else
      let e ← Rules.withIn r.assign
      semicolon
      return .exportDefaultExpr e

/-- An exported declaration that only typed code has, if one stands here; it is only tried. -/
def exportedDecl? (r : Rules) (ds : List Expr) : Parse (Option Decl) := do
  match ← token with
  | .word w _ =>
    let isSameLine := !(← newline)
    let found ← speculate do
      advance
      match ← typedDecl? r w true isSameLine ds false with
      | some d => pure d
      | none => fail
    return found
  | _ => return none

/-- What may follow the word `export` in typed code only. -/
def exportTyped? (r : Rules) (ds : List Expr) : Parse (Option Item) := do
  let declared ← if ← eatWord "declare" then declared? r ds else pure none
  match declared with
  | some d => return some (.exportDecl d)
  | none =>
    match ← exportedDecl? r ds with
    | some d => return some (.exportDecl d)
    | none =>
      if ← eatWord "import" then
        let isType ← if ← isWord "type" then do pure (← peek).1.isIdent else pure false
        if isType then advance
        return some (← importEqualsRest (← anyWord))
      else if ← eatPunct "=" then
        let e ← r.expr
        semicolon
        return some (.exportAssignment e)
      else if ← eatWord "as" then
        word "namespace"
        let id ← identifier
        semicolon
        return some (.namespaceExport id)
      else return none

def exportRest (r : Rules) (ds : List Expr) (typeOnly : Bool) : Parse Item := do
  let ds ← exportDecorators r ds
  if typeOnly then
    if ← isPunct "*" then exportAllRest r true else exportClause r true
  else if ← isWord "class" then return .exportDecl (← classDecl r ds false false)
  else if ← atAsyncFunction then return .exportDecl (← functionDecl r true ds false)
  else if ← isWord "function" then return .exportDecl (← functionDecl r false ds false)
  else
    let isEnum ← if (← isTyped) && (← isWord "const") then peekWord "enum" else pure false
    if isEnum then
      advance
      advance
      return .exportDecl (← enumRest r false)
    else
      match ← varKind? with
      | some kind => return .exportDecl (← variableDecl r kind false)
      | none => if ← isPunct "*" then exportAllRest r false else exportClause r false

def exportItem (r : Rules) (ds : List Expr) : Parse Item := do
  word "export"
  let typed ← isTyped
  let found ← if typed then exportTyped? r ds else pure none
  match found with
  | some item => return item
  | none =>
    let typeOnly ← if typed then eatWord "type" else pure false
    let isDefault ← if typeOnly then pure false else eatWord "default"
    if isDefault then exportDefault r ds else exportRest r ds typeOnly

/-- An item of a module body. -/
def itemRule (r : Rules) : Parse Item := do
  let ds ← decorators r
  if ← isWord "import" then
    if (← peek).1.isPunctOf ["(", "."] then return .stmt (← importStmt r) else importItem r
  else if ← isWord "export" then
    guarded (ds.isEmpty || (← isTyped))
    exportItem r ds
  else return .stmt (← stmtFrom r true ds)

/-! ### The whole grammar -/

/-- The grammar rules for trees that nest at most `fuel` steps. -/
def rules : Nat → Rules
  | 0 => .exhausted
  | fuel + 1 =>
    { assign := fun c s => assignRule (rules fuel) c s
      unary := fun c s => unaryRule (rules fuel) c s
      operand := fun c s => operandRule (rules fuel) c s
      decorator := fun c s => decoratorRule (rules fuel) c s
      type := fun c s => typeRule (rules fuel) c s
      plainType := fun c s => plainTypeRule (rules fuel) c s
      pattern := fun c s => bindingPattern (rules fuel) c s
      stmt := fun canDeclare c s => stmtRule (rules fuel) canDeclare c s
      item := fun c s => itemRule (rules fuel) c s
      markup := fun start c s => markupRule (rules fuel) start c s }

/-- The rest of a source after a first line that starts with `#!`. -/
def skipShebang (c : Cursor) : Cursor :=
  match c.chars with
  | '#' :: '!' :: cs =>
    let line := cs.takeWhile fun x => !isLineEnd x
    ⟨cs.drop line.length, c.pos + 2 + (String.ofList line).utf8ByteSize⟩
  | _ => c

/-- The text of a source without a byte order mark at its start. -/
def dropMark : List Char → List Char
  | '﻿' :: cs => cs
  | cs => cs

/-- The tree of a source text, `none` for a text that is no module. Offsets count the bytes
after a byte order mark. -/
def Module.parse? (features : Features) (source : String) : Option Module := do
  let chars := dropMark source.toList
  let limit := chars.length + 2
  let start : Cursor := skipShebang ⟨chars, 0⟩
  let depth := 4 * limit + 64
  let r := rules depth
  let s : State := { features, limit, start, rest := start }
  let (items, s) ← (do
    resume start
    modify fun s => { s with newline := true }
    many do
      match ← token with
      | .eof => return none
      | _ => return some (← r.item)
    : Parse (List Item)) {} s
  return { items, typeNames := s.typeNames, depth }

end Script
end AtomicStyles
