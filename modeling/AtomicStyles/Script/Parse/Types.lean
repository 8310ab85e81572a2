import AtomicStyles.Script.Node
import AtomicStyles.Script.Parse.Patterns

/-!
# Parsing: types

Types are checked for their form and leave nothing but the names they mention.
-/

namespace AtomicStyles
namespace Script

open Parse

/-- Records the identifiers of an expression inside a type. -/
def noteExpr (e : Expr) : Parse Unit := do
  for n in (Node.expr e).preorder (fun _ => true) do
    match n with
    | .ident id => note id.name
    | _ => pure ()

/-! ### Arguments and parameters -/

def typeArguments (r : Rules) : Parse Unit := do
  let _ ← angleList r.type

/-- Types between angle brackets, the last of which may stand beside others. -/
def splitTypeArguments (r : Rules) : Parse Unit :=
  within (fun c => { c with wholeAngles := false }) (typeArguments r)

/-- Type arguments on the same line, if there are any. -/
def optionalTypeArguments (r : Rules) : Parse Unit := do
  if !(← newline) && (← atAngle) then splitTypeArguments r

/-- Which modifiers the type parameters of a declaration can have. -/
structure ParameterModifiers where
  hasVariance : Bool
  hasConst : Bool

def functionModifiers : ParameterModifiers := ⟨false, true⟩

def classModifiers : ParameterModifiers := ⟨true, true⟩

/-- The modifiers of the type parameters of interfaces and aliases. -/
def aliasModifiers : ParameterModifiers := ⟨true, false⟩

/-- Whether the modifiers of a type parameter are allowed, stand in order and only once. -/
def ParameterModifiers.allow (m : ParameterModifiers) : List String → Bool
  | [] => true
  | "const" :: ws => m.hasConst && m.allow ws
  | "in" :: ws => m.hasVariance && !ws.contains "in" && m.allow ws
  | "out" :: ws => m.hasVariance && !ws.contains "in" && !ws.contains "out" && m.allow ws
  | _ => false

def typeParameter (r : Rules) (m : ParameterModifiers) : Parse Unit := do
  let ws ← many (modifier? ["public", "private", "protected", "readonly", "abstract", "const",
    "override", "in", "out"])
  require (m.allow ws)
  let id ← anyWord
  note id.name
  if ← eatWord "extends" then r.type
  if ← eatPunct "=" then r.type

def typeParameters (r : Rules) (m : ParameterModifiers) : Parse Unit := do
  guarded (← isPunct "<")
  let _ ← within (fun c => { c with wholeAngles := false }) (angleList (typeParameter r m))

def optionalTypeParameters (r : Rules) (m : ParameterModifiers) : Parse Unit := do
  if (← isTyped) && (← isPunct "<") then typeParameters r m

/-- Parameters of a function type; only their names are kept. -/
def typeSignature (r : Rules) : Parse Nat := do
  let ps ← parameters r
  guarded (!ps.any Pat.hasDefault)
  for id in Pat.namesList ps do
    note id.name
  return ps.length

/-- A return type: a type, or a statement about a parameter. -/
def returnType (r : Rules) : Parse Unit := do
  let asserts ← if ← isWord "asserts" then do pure (← peek).1.isIdent else pure false
  if asserts then advance
  let isStatement ← if ← atIdent then peekWordHere "is" else pure false
  if asserts || isStatement then
    let id ← anyWord
    note id.name
    if isStatement then
      advance
      r.type
  else r.type

def optionalReturnType (r : Rules) : Parse Unit := do
  if ← isTyped then
    if ← eatPunct ":" then returnType r

/-! ### Names -/

/-- The members of a dotted name after its first part. -/
def dottedName (part : Parse Ident) : Parse Unit := do
  let _ ← many do
    if ← eatPunct "." then
      let _ ← part
      return some ()
    else return none

/-- A dotted name, the first part of which is recorded. -/
def entityName (part : Parse Ident) : Parse Unit := do
  let id ← anyWord
  require (id.name != "void")
  note id.name
  dottedName part

def typeReference (r : Rules) : Parse Unit := do
  let isModified ← accessWord
  entityName anyWord
  optionalTypeArguments r
  require (!isModified)

/-- The type of a module, or of something in it. -/
def importType (r : Rules) : Parse Unit := do
  word "import"
  punct "("
  match ← token with
  | .str _ => advance
  | .eof => fail
  | _ =>
    require false
    advance
  punct ")"
  if ← eatPunct "." then entityName identifier
  if ← atAngle then splitTypeArguments r

/-- The text and types of a template type from a cursor inside it. -/
def templateType (r : Rules) (c : Cursor) : Nat → Parse Unit
  | 0 => fail
  | fuel + 1 => do
    match scanTemplate [] c (← get).limit with
    | none => fail
    | some (_, .quote, rest) => resume rest
    | some (_, .substitution, rest) =>
      resume rest
      r.type
      guarded (← isPunct "\x7d")
      templateType r ((← get).start.skip 1) fuel

/-! ### Members -/

def memberEnd : Parse Unit := do
  if !(← eatPunct ",") then semicolon

/-- An index signature, a named key in brackets with its type, if one stands here. -/
def indexSignature? (r : Rules) : Parse (Option Ident) := do
  let starts ← ahead do
    punct "["
    guarded (← atIdent)
    advance
    guarded (← isPunctOf [":", ","])
  if starts then
    advance
    let id ← anyWord
    require (← isPunct ":")
    advance
    r.type
    punct "]"
    optionalType r
    memberEnd
    return some id
  else return none

def typeMemberKey (r : Rules) : Parse Unit := do
  match ← token with
  | .punct "[" =>
    advance
    noteExpr (← r.assign)
    punct "]"
  | .str _ => advance
  | .num _ => advance
  | .punct "#" =>
    require false
    let _ ← privateName
  | _ =>
    let id ← anyWord
    note id.name

def callSignature (r : Rules) : Parse Unit := do
  optionalTypeParameters r functionModifiers
  let _ ← typeSignature r
  optionalReturnType r

/-- A member that reads or writes a property. -/
def typeAccessor (r : Rules) : Parse Unit := do
  if ← eatWord "get" then
    typeMemberKey r
    punct "("
    punct ")"
    optionalType r
  else
    word "set"
    typeMemberKey r
    guarded ((← typeSignature r) ≠ 0)
  memberEnd

/-- A property or method of an interface or object type. -/
def typeProperty (r : Rules) (isReadonly : Bool) : Parse Unit := do
  typeMemberKey r
  let _ ← eatPunct "?"
  if ← isPunctOf ["(", "<"] then
    guarded (!isReadonly)
    callSignature r
  else optionalType r
  memberEnd

def typeMember (r : Rules) : Parse Unit := do
  let constructs ← if ← isWord "new" then do pure ((← peek).1.isPunctOf ["(", "<"]) else pure false
  if constructs then advance
  if constructs || (← isPunctOf ["(", "<"]) then
    callSignature r
    memberEnd
  else
    let isReadonly := (← modifier? ["readonly"]).isSome
    match ← indexSignature? r with
    | some id => note id.name
    | none =>
      let accessor ← if isReadonly then pure none else speculate (typeAccessor r)
      match accessor with
      | some () => pure ()
      | none => typeProperty r isReadonly

/-- The members of an interface or of an object type in braces. -/
def typeMembers (r : Rules) : Parse Unit := do
  punct "\x7b"
  let _ ← many do
    if ← isPunct "\x7d" then return none
    else
      typeMember r
      return some ()
  punct "\x7d"

/-! ### Types -/

/-- Whether a mapped type starts at the current brace. -/
def atMappedType : Parse Bool :=
  ahead do
    punct "\x7b"
    if ← isPunctOf ["+", "-"] then
      advance
      guarded (← isWord "readonly")
    else
      let _ ← eatWord "readonly"
      punct "["
      guarded (← atIdent)
      advance
      guarded (← isWord "in")

def mappedType (r : Rules) : Parse Unit := do
  punct "\x7b"
  if ← isPunctOf ["+", "-"] then
    advance
    word "readonly"
  else
    let _ ← eatWord "readonly"
  punct "["
  let id ← anyWord
  note id.name
  word "in"
  r.type
  if ← eatWord "as" then r.type
  punct "]"
  if ← isPunctOf ["+", "-"] then
    advance
    punct "?"
  else
    let _ ← eatPunct "?"
  if ← eatPunct ":" then r.type
  semicolon
  punct "\x7d"

/-- How an item of a tuple type can be left out. -/
inductive TupleItem where
  | required
  | optional
  | rest

/-- The name before an item of a tuple type. -/
def tupleLabel : Parse Unit := do
  let _ ← eatPunct "..."
  let id ← anyWord
  let _ ← eatPunct "?"
  punct ":"
  note id.name

/-- An item of a tuple type: a type, perhaps optional, spread or named. -/
def tupleItem (r : Rules) : Parse TupleItem := do
  let _ ← speculate tupleLabel
  if ← eatPunct "..." then
    r.type
    return .rest
  else
    r.type
    if ← eatPunct "?" then return .optional else return .required

/-- Whether no required item of a tuple type stands after an optional one. -/
def validTuple (seenOptional : Bool) : List TupleItem → Bool
  | [] => true
  | .required :: items => !seenOptional && validTuple seenOptional items
  | .optional :: items => validTuple true items
  | .rest :: items => validTuple seenOptional items

/-- Words that stand for types of the language. -/
def typeWords : List String :=
  ["any", "bigint", "boolean", "intrinsic", "never", "null", "number", "object", "string", "symbol",
    "undefined", "unknown", "void"]

/-- Reserved words that can be the name of a type. -/
def reservedTypeNames : List String :=
  ["await", "break", "enum", "implements", "interface", "null", "package", "private", "protected",
    "public", "void", "yield"]

/-- A type that is `this`, or a statement about it. -/
def thisType (r : Rules) : Parse Unit := do
  word "this"
  if !(← newline) && (← isWord "is") then
    advance
    r.type

def wordType (r : Rules) (w : String) : Parse Unit := do
  match w with
  | "true" => advance
  | "false" => advance
  | "this" => thisType r
  | "import" => importType r
  | "typeof" =>
    advance
    if ← isWord "import" then importType r else entityName anyWord
    optionalTypeArguments r
  | w =>
    if w == "asserts" && (← peekWord "this") then
      advance
      word "this"
      if ← eatWord "is" then r.type
    else if typeWords.contains w && !(← peekPunct ".") then advance
    else
      guarded (!isReserved w || reservedTypeNames.contains w)
      typeReference r

/-- A type that is neither combined nor an array. -/
def primaryType (r : Rules) : Parse Unit := do
  match ← token with
  | .str _ => advance
  | .num _ => advance
  | .bigInt => advance
  | .punct "-" =>
    advance
    match ← token with
    | .num _ => advance
    | .bigInt => advance
    | _ => fail
  | .punct "`" => templateType r ((← get).start.skip 1) (← get).limit
  | .punct "\x7b" => if ← atMappedType then mappedType r else typeMembers r
  | .punct "[" =>
    advance
    guarded (validTuple false (← commaList "]" (tupleItem r)))
  | .punct "(" =>
    advance
    r.type
    punct ")"
  | .word w false => wordType r w
  | .word _ true => typeReference r
  | _ => fail

def suffixedType (r : Rules) : Parse Unit := do
  primaryType r
  let _ ← many do
    if (← isPunct "[") && !(← newline) then
      advance
      if !(← isPunct "]") then r.type
      punct "]"
      return some ()
    else return none

/-- A type that is found out by matching, with a bound on it. -/
def inferredType (r : Rules) : Parse Unit := do
  word "infer"
  let id ← anyWord
  note id.name
  let _ ← speculate do
    word "extends"
    r.plainType
    guarded ((← context).plainTypes || !(← isPunct "?"))

def operatorType (r : Rules) : Parse Unit := do
  let _ ← many do
    if (← token).isWordOf ["keyof", "unique", "readonly"] then
      advance
      return some ()
    else return none
  if ← isWord "infer" then inferredType r else suffixedType r

/-- Types combined by a punctuator, which may also stand before the first. -/
def combinedType (p : String) (item : Parse Unit) : Parse Unit := do
  let _ ← eatPunct p
  item
  let _ ← many do
    if ← eatPunct p then
      item
      return some ()
    else return none

/-- Whether a function type starts at the current parenthesis. -/
def atFunctionType (r : Rules) : Parse Bool :=
  ahead do
    punct "("
    if !(← isPunctOf [")", "..."]) then
      let _ ← accessWord
      if (← token).isName then advance
      else
        guarded (← isPunctOf ["[", "\x7b"])
        let _ ← r.pattern
      if !(← isPunctOf [":", ",", "?", "="]) then
        punct ")"
        guarded (← isPunct "=>")

/-- A function type from its type parameters on. -/
def functionType (r : Rules) : Parse Unit := do
  optionalTypeParameters r functionModifiers
  let _ ← typeSignature r
  punct "=>"
  returnType r

/-- A type that is no conditional type. -/
def plainTypeRule (r : Rules) : Parse Unit := do
  let constructs ← if ← isWord "new" then pure true
    else if ← isWord "abstract" then peekWord "new"
    else pure false
  if constructs then
    let _ ← eatWord "abstract"
    advance
    functionType r
  else
    let isFunction ← if ← isPunct "<" then pure true
      else if ← isPunct "(" then atFunctionType r
      else pure false
    if isFunction then functionType r
    else combinedType "|" (combinedType "&" (operatorType r))

def typeRule (r : Rules) : Parse Unit :=
  within (fun c => { c with plainTypes := false }) do
    r.plainType
    if !(← newline) && (← isWord "extends") then
      advance
      within (fun c => { c with plainTypes := true }) r.plainType
      punct "?"
      r.type
      punct ":"
      r.type

end Script
end AtomicStyles
