import AtomicStyles.Script.Parse.Functions

/-!
# Parsing: expressions

What stands in parentheses can be an expression or the parameters of an arrow function.
It is read once, as a list of expressions with the marks that only parameters can have
(`ParenItem`), and taken for the one or the other when the arrow shows itself or does
not.
-/

namespace AtomicStyles
namespace Script

open Parse

/-! ### Literals -/

def templateParts (r : Rules) (c : Cursor) : Nat → Parse (List String × List Expr)
  | 0 => fail
  | fuel + 1 => do
    match scanTemplate [] c (← get).limit with
    | none => fail
    | some (text, .quote, rest) =>
      resume rest
      return ([text], [])
    | some (text, .substitution, rest) =>
      resume rest
      let e ← Rules.enclosed r.expr
      guarded (← isPunct "\x7d")
      let (texts, es) ← templateParts r ((← get).start.skip 1) fuel
      return (text :: texts, e :: es)

/-- A template from its opening backquote. -/
def template (r : Rules) : Parse Expr := do
  let s ← get
  let (texts, es) ← templateParts r (s.start.skip 1) s.limit
  return .template texts es

def taggedParts (r : Rules) (c : Cursor) : Nat → Parse (List Expr)
  | 0 => fail
  | fuel + 1 => do
    match skipTemplate c (← get).limit with
    | none => fail
    | some (.quote, rest) =>
      resume rest
      return []
    | some (.substitution, rest) =>
      resume rest
      let e ← Rules.enclosed r.expr
      guarded (← isPunct "\x7d")
      return e :: (← taggedParts r ((← get).start.skip 1) fuel)

/-- The flags a regular expression can have. -/
def regexFlags : List Char := ['d', 'g', 'i', 'm', 's', 'u', 'v', 'y']

/-- Whether flags are known and different from each other. -/
def validFlags : List Char → Bool
  | [] => true
  | f :: fs => regexFlags.contains f && !fs.contains f && validFlags fs

/-- A regular expression from its opening slash. -/
def regex : Parse Expr := do
  let s ← get
  match skipPattern false (s.start.pos + 1) (s.start.chars.drop 1) with
  | none => fail
  | some c =>
    guarded (c.peek? != some '\\')
    match scanWord [] false c s.limit with
    | some (flags, _, rest) =>
      require (validFlags flags)
      resume rest
      return .regex
    | none => fail

def spreadable (r : Rules) : Parse Expr := do
  if ← eatPunct "..." then return .spread (← r.assign) false else r.assign

/-- Marks a last item that is spread and has a comma after it. -/
def markComma : Expr → Expr
  | .spread e _ => .spread e true
  | e => e

def arrayLiteral (r : Rules) : Parse Expr := do
  punct "["
  let items ← Rules.enclosed <| many do
    if ← isPunct "]" then return none
    else if ← eatPunct "," then return some .hole
    else
      let item ← spreadable r
      if ← isPunct "]" then return some item
      else
        punct ","
        return some (if ← isPunct "]" then markComma item else item)
  punct "]"
  return .array items

/-! ### Object literals -/

/-- A property that starts with one of the words `get`, `set` and `async`, which has been read. -/
def accessorProperty (r : Rules) (w : String) : Parse Property := do
  let isGenerator ← if w == "async" then eatPunct "*" else pure false
  let key ← propertyKey r
  let f ← functionRest r .method (w == "async") isGenerator []
  match w with
  | "get" =>
    checkGetter f
    return .getter key f.body
  | "set" =>
    checkSetter f
    match withoutThis f.params with
    | param :: _ => return .setter key param f.body
    | [] => fail
  | _ => return .method key f

/-- A property of an object literal that starts with its key. -/
def plainProperty (r : Rules) : Parse Property := do
  let isModified ← accessWord
  let pos ← offset
  let key ← propertyKey r
  if ← eatPunct ":" then return .keyValue key (← Rules.withIn r.assign)
  else if ← atMethod then return .method key (← functionRest r .method false false [])
  else
    match key with
    | .name w =>
      if ← eatPunct "?" then require false
      if ← eatPunct "=" then return .shorthandDefault ⟨w, pos⟩ (← Rules.withIn r.assign)
      else if ← isPunctOf [",", "\x7d"] then return .shorthand ⟨w, pos⟩
      else
        guarded (["get", "set", "async"].contains w)
        require (!isModified)
        accessorProperty r w
    | _ => fail

/-- A property of an object literal. -/
def property (r : Rules) : Parse Property := do
  if ← eatPunct "..." then return .spread (← Rules.withIn r.assign) false
  else if ← eatPunct "*" then
    let key ← propertyKey r
    return .method key (← functionRest r .method false true [])
  else plainProperty r

/-- Marks a last property that is spread and has a comma after it. -/
def Property.markComma : Property → Property
  | .spread e _ => .spread e true
  | p => p

def objectLiteral (r : Rules) : Parse Expr := do
  punct "\x7b"
  let props ← within (fun c => { c with expectColon := false }) <| many do
    if ← isPunct "\x7d" then return none
    else
      let p ← property r
      if ← isPunct "\x7d" then return some p
      else
        punct ","
        return some (if ← isPunct "\x7d" then p.markComma else p)
  punct "\x7d"
  return .object props

/-! ### Operators -/

/-- The operator a word or punctuator is before its operand. -/
def unaryOp? : Token → Option UnaryOp
  | .punct "-" => some .negate
  | .punct "+" => some .plus
  | .punct "!" => some .not
  | .punct "~" => some .complement
  | .word "typeof" false => some .typeOf
  | .word "void" false => some .void
  | .word "delete" false => some .delete
  | _ => none

/-- The binary operator of a token and how tightly it binds. -/
def binaryOp? (allowIn : Bool) : Token → Option (BinaryOp × Nat)
  | .punct p =>
    match p with
    | "??" => some (.coalesce, 1)
    | "||" => some (.or, 1)
    | "&&" => some (.and, 2)
    | "|" => some (.bitOr, 3)
    | "^" => some (.bitXor, 4)
    | "&" => some (.bitAnd, 5)
    | "==" => some (.eq, 6)
    | "!=" => some (.ne, 6)
    | "===" => some (.strictEq, 6)
    | "!==" => some (.strictNe, 6)
    | "<" => some (.lt, 7)
    | "<=" => some (.le, 7)
    | ">" => some (.gt, 7)
    | ">=" => some (.ge, 7)
    | "<<" => some (.shiftLeft, 8)
    | ">>" => some (.shiftRight, 8)
    | ">>>" => some (.shiftRightZero, 8)
    | "+" => some (.add, 9)
    | "-" => some (.sub, 9)
    | "*" => some (.mul, 10)
    | "/" => some (.div, 10)
    | "%" => some (.rem, 10)
    | "**" => some (.pow, 11)
    | _ => none
  | .word "instanceof" false => some (.instanceOf, 7)
  | .word "in" false => if allowIn then some (.isIn, 7) else none
  | _ => none

/-- Whether an operand may not stand beside `??` without parentheses. -/
def Expr.isOrAnd : Expr → Bool
  | .binary .or _ _ => true
  | .binary .and _ _ => true
  | _ => false

def Expr.isCoalesce : Expr → Bool
  | .binary .coalesce _ _ => true
  | _ => false

/-- Whether two operands may stand beside an operator without parentheses. -/
def mixes (op : BinaryOp) (l r : Expr) : Bool :=
  match op with
  | .coalesce => !l.isOrAnd && !r.isOrAnd
  | .or => !l.isCoalesce && !r.isCoalesce
  | .and => !l.isCoalesce && !r.isCoalesce
  | _ => true

def Expr.isArrow : Expr → Bool
  | .arrow _ _ _ => true
  | _ => false

/-- Whether an expression must not be raised to a power without parentheses. -/
def Expr.isUnary : Expr → Bool
  | .unary _ _ => true
  | .await _ => true
  | _ => false

/-- The operators after an operand that bind more tightly than `least`. A type assertion holds for
the operand it stands after. -/
def binaryRest (r : Rules) (left : Expr) (least : Nat) : Nat → Parse Expr
  | 0 => fail
  | fuel + 1 => do
    if (← isTyped) && !(← newline) && (← token).isWordOf ["as", "satisfies"] then
      let isAs ← isWord "as"
      advance
      if isAs && (← eatWord "const") then binaryRest r (.typed .const left) least fuel
      else
        r.type
        binaryRest r (.typed (if isAs then .as else .satisfies) left) least fuel
    else
      match binaryOp? (← context).allowIn (← token) with
      | none => return left
      | some (op, level) =>
        if level ≤ least then return left
        else
          advance
          guarded (!(op = .pow && left.isUnary))
          let operand ← r.unary
          let right ← binaryRest r operand (if op = .pow then level - 1 else level) fuel
          require (mixes op left right)
          binaryRest r (.binary op left right) least fuel

/-- An operand with the binary operators after it. -/
def binaryExpr (r : Rules) : Parse Expr := do
  let left ← r.unary
  if left.isArrow then return left else binaryRest r left 0 (← get).limit

/-- The branches of a conditional expression after its question mark. -/
def branches (r : Rules) (test : Expr) : Parse Expr := do
  let yes ← within (fun c =>
    { c with inConditional := true, expectColon := true, allowIn := true }) r.assign
  punct ":"
  let no ← within (fun c => { c with inConditional := true, expectColon := false }) r.assign
  return .cond test yes no

def conditional (r : Rules) : Parse Expr := do
  let test ← binaryExpr r
  if test.isArrow then return test
  else if ← eatPunct "?" then branches r test
  else return test

/-! ### Assignments -/

def assignOp? : Token → Option AssignOp
  | .punct p =>
    match p with
    | "=" => some .set
    | "+=" => some (.update .add)
    | "-=" => some (.update .sub)
    | "*=" => some (.update .mul)
    | "/=" => some (.update .div)
    | "%=" => some (.update .rem)
    | "**=" => some (.update .pow)
    | "<<=" => some (.update .shiftLeft)
    | ">>=" => some (.update .shiftRight)
    | ">>>=" => some (.update .shiftRightZero)
    | "&=" => some (.update .bitAnd)
    | "|=" => some (.update .bitOr)
    | "^=" => some (.update .bitXor)
    | "&&=" => some (.update .and)
    | "||=" => some (.update .or)
    | "??=" => some (.update .coalesce)
    | _ => none
  | _ => none

/-- The assignment that an expression is the target of, if an operator follows. -/
def assignment (r : Rules) (left : Expr) : Parse Expr := do
  match assignOp? (← token) with
  | none => return left
  | some op =>
    let target ← match op with
      | .set => assignTarget left
      | .update _ => updateTarget left
    advance
    return .assign op target (← r.assign)

def Token.startsOperand : Token → Bool
  | .word w escaped =>
    escaped || !isReserved w || ["await", "class", "delete", "false", "function", "import", "new",
      "null", "super", "this", "true", "typeof", "void", "yield", "let"].contains w
  | .punct p => ["(", "[", "\x7b", "`", "!", "~", "++", "--", "+", "-", "<", "#", "@"].contains p
  | .num _ => true
  | .str _ => true
  | .bigInt => true
  | .eof => false

def yieldExpr (r : Rules) : Parse Expr := do
  word "yield"
  let c ← context
  guarded (!(c.inParameters && !c.inFunction))
  if ← atEnd then return .yield none
  else if (← token).startsOperand || (← isPunctOf ["*", "/", "/="]) then
    let _ ← eatPunct "*"
    return .yield (some (← r.assign))
  else return .yield none

/-! ### Parentheses and arrow functions -/

/-- What stands between the commas in parentheses: an expression, or what can only be a
parameter. -/
inductive ParenItem where
  | expr (e : Expr)
  | pat (p : Pat)

namespace ParenItem

def isPat : ParenItem → Bool
  | .pat _ => true
  | .expr _ => false

/-- Whether an item is a plain name. -/
def isName : ParenItem → Bool
  | .expr (.ident _) => true
  | .pat (.ident _) => true
  | _ => false

def expr? : ParenItem → Option Expr
  | .expr e => some e
  | .pat _ => none

/-- Whether an item is an object literal with a default at its top. -/
def hasDefault : ParenItem → Bool
  | .expr (.object props) => props.any fun
    | .shorthandDefault _ _ => true
    | _ => false
  | _ => false

end ParenItem

/-- The parameters that items in parentheses spell; a rest can only stand last, without a comma
after it. -/
def itemPats (hasComma : Bool) : List ParenItem → Parse (List Pat)
  | [] => return []
  | [.expr (.spread e _)] => do
    require (!hasComma && !e.isDefault)
    return [.rest (← reinterpret .binding e)]
  | [.pat (.rest p)] => do
    require (!hasComma)
    return [.rest p]
  | .expr (.spread _ _) :: items => do
    require false
    itemPats hasComma items
  | .pat (.rest _) :: items => do
    require false
    itemPats hasComma items
  | .expr e :: items => do return (← reinterpret .binding e) :: (← itemPats hasComma items)
  | .pat p :: items => do return p :: (← itemPats hasComma items)

def itemParameters (items : List ParenItem) (hasComma : Bool) : Parse (List Pat) := do
  let ps ← itemPats hasComma items
  require ((Pat.namesList ps).all fun id => !isFixedName id.name)
  return ps

/-- The expression at the head of an item. Where types are allowed a question mark after a name can
be the mark of an optional parameter, so that no conditional expression is read yet. -/
def itemExpr (r : Rules) : Parse Expr := do
  let isSpread ← isPunct "..."
  let next ← if isSpread then do pure (← peek).1 else token
  if (← isTyped) && next.isIdent then
    if isSpread then
      advance
      return .spread (← binaryExpr r) false
    else assignment r (← binaryExpr r)
  else spreadable r

def Expr.isSpread : Expr → Bool
  | .spread _ _ => true
  | _ => false

def Expr.isIdent : Expr → Bool
  | .ident _ => true
  | _ => false

/-- The parameter that an expression with a mark or a type after it is. -/
def typedItem (r : Rules) (e : Expr) : Parse Pat := do
  let p ← match e with
    | .spread e _ => do pure (Pat.rest (← reinterpret .binding e))
    | e => reinterpret .binding e
  optionalType r
  if ← eatPunct "=" then return .withDefault p (← r.assign) else return p

def parenItem (r : Rules) : Parse ParenItem := do
  let e ← itemExpr r
  if ← isTyped then
    let (isOptional, e) ← if ← isPunct "?" then do
        if (← peek).1.isPunctOf [",", ":", ")", "="] then
          advance
          require (!e.isSpread)
          guarded e.isIdent
          pure (true, e)
        else if e.isSpread then pure (false, e)
        else
          advance
          pure (false, ← branches r e)
      else pure (false, e)
    if isOptional || (← isPunct ":") then return .pat (← typedItem r e) else return .expr e
  else return .expr e

/-- The items in parentheses up to the closing one, which is left, and whether a comma stands after
the last. An arrow on a line of its own after a name makes one more item. -/
def parenItems (r : Rules) (items : List ParenItem) : Nat → Parse (List ParenItem × Bool)
  | 0 => fail
  | fuel + 1 => do
    if ← isPunct ")" then return (items, false)
    else
      let isAsync ← if ← isWord "async" then do
          let next := (← peek).1
          pure (next.isPunct "(" || next.isName)
        else pure false
      modify fun s => { s with arrowStart := some s.start.pos }
      let isModified ← accessWord
      let items := items ++ [← parenItem r]
      require (!isModified)
      let items ← if ← eatPunct "=>" then do
          if items.head?.any ParenItem.isName then
            let params ← itemParameters items false
            pure (items ++ [.expr (.arrow params (← arrowBody r isAsync params) isAsync)])
          else pure items
        else pure items
      if ← isPunct ")" then return (items, false)
      else
        punct ","
        if ← isPunct ")" then return (items, true) else parenItems r items fuel

def arrowRest (r : Rules) (isAsync : Bool) (params : List Pat) : Parse Expr := do
  punct "=>"
  return .arrow params (← arrowBody r isAsync params) isAsync

/-- An arrow function in a conditional expression: a colon after its parameters can also be that of
the expression. -/
def branchArrow (r : Rules) (isAsync : Bool) (items : List ParenItem) (hasComma : Bool) :
    Parse Expr := do
  punct ":"
  returnType r
  guarded (← isPunct "=>")
  let params ← itemParameters items hasComma
  let e ← arrowRest r isAsync params
  if (← context).expectColon then guarded (← isPunct ":")
  return e

def arrowReturnType (r : Rules) : Parse Bool := do
  if (← isTyped) && !(← context).expectColon && (← isPunct ":") then
    let found ← speculate do
      advance
      returnType r
      guarded (← isPunct "=>")
    return found.isSome
  else return false

/-- An arrow function with parameters in parentheses that have been read. -/
def parenArrow (r : Rules) (canBeArrow isAsync : Bool) (items : List ParenItem) (hasComma : Bool) :
    Parse Expr := do
  guarded (!(← newline) && canBeArrow)
  guarded (← isPunct "=>")
  let params ← itemParameters items hasComma
  let e ← arrowRest r isAsync params
  match e with
  | .arrow _ (.block _) _ => require (binaryOp? false (← token)).isNone
  | _ => pure ()
  return e

/-- What items in parentheses are without an arrow: an expression, or the arguments of a function
named `async`. -/
def parenExpr (asyncPos : Option Nat) (items : List ParenItem) : Parse Expr := do
  require (!items.any ParenItem.hasDefault)
  guarded (!items.any ParenItem.isPat)
  let es := items.filterMap ParenItem.expr?
  match asyncPos with
  | some pos => return .call (.ident ⟨"async", pos⟩) es ⟨pos, ← lastStop⟩
  | none =>
    guarded (!es.isEmpty && !es.any Expr.isSpread)
    match es with
    | [e] => return .paren e
    | es => return .paren (.sequence es)

/-- An expression in parentheses, an arrow function, or the call of a function named `async`, the
position of which is given then. -/
def parenthesized (r : Rules) (canBeArrow : Bool) (asyncPos : Option Nat) : Parse Expr := do
  let isAsync := asyncPos.isSome
  let (items, hasComma) ← Rules.enclosed do
    punct "("
    let result ← parenItems r [] (← get).limit
    punct ")"
    pure result
  let tried ← if (← isTyped) && (← context).inConditional && (← isPunct ":") then
      speculate (branchArrow r isAsync items hasComma)
    else pure none
  match tried with
  | some e => return e
  | none =>
    let hasType ← arrowReturnType r
    if hasType || items.any ParenItem.isPat || (← isPunct "=>") then
      parenArrow r canBeArrow isAsync items hasComma
    else parenExpr asyncPos items

/-- An asynchronous arrow function from its type parameters on. -/
def genericAsyncArrow (r : Rules) : Parse Expr := do
  typeParameters r functionModifiers
  let params ← parameters r
  optionalReturnType r
  arrowRest r true params

/-! ### Primary expressions -/

/-- An identifier, or an arrow function with one parameter that is a plain name. -/
def identExpr (r : Rules) (canBeArrow : Bool) : Parse Expr := do
  let id ← identifier
  if canBeArrow && id.name == "async" && !(← newline) && (← atIdent) then
    let c ← context
    let ofFollows ← if c.inLoopHead && (← isWord "of") then do pure !(← peekPunct "=>")
      else pure false
    if ofFollows then
      require c.inAwaitHead
      return .ident id
    else
      let param ← bindingIdentifier
      if (← isTyped) && param.name == "as" && !(← isPunct "=>") then
        r.type
        return .typed .as (.ident id)
      else arrowRest r true [.ident param]
  else if canBeArrow && !(← newline) && (← isPunct "=>") then
    require (!isFixedName id.name)
    arrowRest r false [.ident id]
  else return .ident id

/-- What starts with the word `async` and is more than a name. -/
def asyncExpr? (r : Rules) (canBeArrow : Bool) : Parse (Option Expr) := do
  let (next, nextLine) ← peek
  if next.isWord "function" && !nextLine then
    advance
    return some (← functionExpr r true)
  else
    let generic ← if canBeArrow && (← isTyped) && next.isPunct "<" then
        speculate do
          advance
          genericAsyncArrow r
      else pure none
    match generic with
    | some e => return some e
    | none =>
      if canBeArrow && next.isPunct "(" && !nextLine then
        let pos ← offset
        advance
        return some (← parenthesized r true (some pos))
      else return none

def wordExpr (r : Rules) (canBeArrow : Bool) (w : String) : Parse Expr := do
  match w with
  | "this" =>
    advance
    return .this
  | "null" =>
    advance
    return .null
  | "true" =>
    advance
    return .bool true
  | "false" =>
    advance
    return .bool false
  | "function" => functionExpr r false
  | "class" => classExpr r []
  | "async" =>
    match ← asyncExpr? r canBeArrow with
    | some e => return e
    | none => identExpr r canBeArrow
  | w =>
    guarded (!isReserved w || w == "let" || w == "await")
    identExpr r canBeArrow

def primary (r : Rules) : Parse Expr := do
  let pos ← offset
  let canBeArrow := (← get).arrowStart == some pos
  match ← token with
  | .num x =>
    advance
    return .num x
  | .str s =>
    advance
    return .str s
  | .bigInt =>
    advance
    return .bigInt
  | .word w false => wordExpr r canBeArrow w
  | .word _ true => identExpr r canBeArrow
  | .punct "(" => parenthesized r canBeArrow none
  | .punct "[" => arrayLiteral r
  | .punct "\x7b" => objectLiteral r
  | .punct "`" => template r
  | .punct "/" => regex
  | .punct "/=" => regex
  | .punct "#" =>
    advance
    let _ ← anyWord
    return .privateName
  | .punct "@" =>
    let ds ← decorators r
    guarded (!ds.isEmpty)
    if ← isWord "class" then classExpr r ds
    else
      guarded (← atIdent)
      identExpr r false
  | _ => fail

/-! ### Members and calls -/

/-- Whether an expression is a link of an optional chain, with or without marks that it is not
null. -/
def Expr.isChain : Expr → Bool
  | .chainMember _ _ _ => true
  | .chainCall _ _ _ => true
  | .typed .nonNull e => e.isChain
  | _ => false

/-- A member access, in the chain its object is in. -/
def mkMember (e : Expr) (key : Key) : Parse Expr := do
  match e with
  | .superRef =>
    guarded (!key.isHidden)
    return .superMember key
  | .importRef => fail
  | e => return if e.isChain then .chainMember false e key else .member e key

def mkCall (e : Expr) (args : List Expr) (span : Span) : Expr :=
  if e.isChain then .chainCall false e args else .call e args span

/-- The arguments of a call of `import`; a comma after the last one is for typed code. -/
def importArguments (r : Rules) : Parse (List Expr) := do
  punct "("
  let args ← Rules.enclosed <| many do
    if ← isPunct ")" then return none
    else
      let e ← spreadable r
      if !(← isPunct ")") then
        punct ","
        guarded ((← isTyped) || !(← isPunct ")"))
      return some e
  punct ")"
  return args

def callRest (r : Rules) (start : Nat) (e : Expr) : Parse Expr := do
  let args ← match e with
    | .importRef => importArguments r
    | _ => callArguments r
  return mkCall e args ⟨start, ← lastStop⟩

/-- The key after a point. -/
def pointKey : Parse Key := do
  if ← isPunct "#" then
    let _ ← privateName
    return .hidden
  else return .name (← anyWord).name

def indexKey (r : Rules) : Parse Key := do
  punct "["
  let i ← Rules.withIn r.expr
  punct "]"
  return .computed i

/-- The substitutions of a tagged template from its backquote on. -/
def taggedRest (r : Rules) (e : Expr) : Parse Expr := do
  require (match e with
    | .chainMember _ _ _ => false
    | .chainCall _ _ _ => false
    | _ => true)
  let s ← get
  return .tagged e (← taggedParts r (s.start.skip 1) s.limit)

/-- Whether the current token starts an expression after type arguments, so that they are none. -/
def startsOperandHere : Parse Bool := do
  let t ← token
  match t with
  | .word "import" false => return (← peek).1.isPunctOf ["(", "<", "."]
  | .word w false =>
    return !isReserved w || ["await", "class", "delete", "false", "function", "new", "null", "super",
      "this", "true", "typeof", "void", "yield"].contains w
  | .word _ true => return true
  | .punct "#" => return (← peek).1.isName
  | .punct p => return ["(", "[", "\x7b", "`", "+", "-", "~", "!", "++", "--", "<"].contains p
  | .eof => return false
  | _ => return true

/-- Reads type arguments that are no operands of comparisons: what follows them cannot start an
operand. -/
def loneTypeArguments? (r : Rules) : Parse Bool := do
  let found ← speculate do
    typeArguments r
    guarded (!(← isPunctOf ["<", ">", "+", "-", "(", "`"]))
    guarded ((← newline) || (binaryOp? false (← token)).isSome || !(← startsOperandHere))
  return found.isSome

/-- Lone type arguments after an expression, if there are any. -/
def instantiated? (r : Rules) (e : Expr) : Parse Expr := do
  if (← isTyped) && (← isPunct "<") then
    return if ← loneTypeArguments? r then .instantiated e else e
  else return e

/-- What a link of an expression leads to, and whether more links may follow. -/
structure Link where
  expr : Expr
  goesOn : Bool := true

/-- Type arguments with what belongs to them: a call, a template, or nothing before an operator that
shows that they are none of a call. -/
def genericLink (r : Rules) (start : Nat) (noCall : Bool) (e : Expr) : Parse Link :=
  within (fun c => { c with wholeAngles := false }) do
    let canBeArrow := !noCall && (← get).arrowStart == some start
    let arrow ← match canBeArrow, e with
      | true, .ident id => if id.name == "async" then attempt (genericAsyncArrow r) else pure none
      | _, _ => pure none
    match arrow with
    | some e => return { expr := e }
    | none =>
      typeArguments r
      if !noCall && (← isPunct "(") then return { expr := ← callRest r start e }
      else if ← isPunct "`" then return { expr := ← taggedRest r e }
      else
        guarded ((← isPunct "=") || (← token).isWordOf ["as", "satisfies"])
        return { expr := .instantiated e, goesOn := false }

/-- Whether an optional link `?.` stands here. -/
def atOptionalLink : Parse Bool := do
  if ← isPunct "?" then peekPunct "." else return false

/-- What an optional link leads to. -/
def optionalLink (r : Rules) (noComputed : Bool) (e : Expr) : Parse Expr := do
  advance
  advance
  if !noComputed && (← isPunct "[") then return .chainMember true e (← indexKey r)
  else if ← isPunct "(" then return .chainCall true e (← callArguments r)
  else if (← isTyped) && (← atAngle) then
    typeArguments r
    return .chainCall true e (← callArguments r)
  else return .chainMember true e (← pointKey)

/-- Whether an expression is no expression of its own: `super` and `import`. -/
def Expr.isIncomplete : Expr → Bool
  | .superRef => true
  | .importRef => true
  | _ => false

/-- A member access, call or other link after an expression that has no type arguments here. -/
def plainLink (r : Rules) (start : Nat) (noCall noComputed : Bool) (e : Expr) :
    Parse (Option Link) := do
  if ← atOptionalLink then
    guarded (!e.isIncomplete)
    return some { expr := ← optionalLink r noComputed e }
  else
    match ← token with
    | .punct "[" =>
      if noComputed then return none else return some { expr := ← mkMember e (← indexKey r) }
    | .punct "(" => if noCall then return none else return some { expr := ← callRest r start e }
    | .punct "." =>
      advance
      let e ← mkMember e (← pointKey)
      return some { expr := ← instantiated? r e }
    | .punct "`" =>
      if e.isIncomplete then return none else return some { expr := ← taggedRest r e }
    | _ => return none

/-- One link after an expression; `none` where there is none. -/
def link? (r : Rules) (start : Nat) (noCall noComputed : Bool) (e : Expr) :
    Parse (Option Link) := do
  let typed ← isTyped
  if typed && !(← newline) && (← isPunct "!") then
    guarded (!e.isIncomplete)
    advance
    return some { expr := .typed .nonNull e }
  else
    let generic ← if typed && !e.isIncomplete && (← atAngle) then
        speculate (genericLink r start noCall e)
      else pure none
    match generic with
    | some l => return some l
    | none => plainLink r start noCall noComputed e

def links (r : Rules) (start : Nat) (noCall noComputed : Bool) (e : Expr) : Nat → Parse Expr
  | 0 => fail
  | fuel + 1 => do
    match ← link? r start noCall noComputed e with
    | none =>
      guarded (!e.isIncomplete)
      return e
    | some l => if l.goesOn then links r start noCall noComputed l.expr fuel else return l.expr

/-- What starts with the word `super`. -/
def superExpr (r : Rules) (noCall : Bool) : Parse Expr := do
  let start ← offset
  word "super"
  guarded ((← isTyped) || (← context).hasSuper)
  links r start noCall false .superRef (← get).limit

/-- What starts with the word `import`: a point and a name, or a call, which may name the phase it
imports for. -/
def importExpr (r : Rules) (noCall : Bool) : Parse Expr := do
  let start ← offset
  word "import"
  if ← eatPunct "." then
    let id ← anyWord
    match id.name with
    | "meta" => links r start noCall false .metaProperty (← get).limit
    | w =>
      guarded (w == "defer" || w == "source")
      links r start noCall false .importRef (← get).limit
  else links r start noCall false .importRef (← get).limit

/-- Drops type arguments after a constructed class. -/
def constructed : Expr → Expr
  | .instantiated e => e
  | e => e

/-- An expression with its members, without calls, and whether it is a construction without
arguments, after which nothing may follow. -/
def memberExpr (r : Rules) : Nat → Parse (Expr × Bool)
  | 0 => fail
  | fuel + 1 => do
    let start ← offset
    let limit := (← get).limit
    if ← eatWord "new" then
      if ← eatPunct "." then
        word "target"
        let c ← context
        require (c.hasNewTarget || c.inParameters)
        return (← links r start true false .metaProperty limit, false)
      else
        let (callee, _) ← memberExpr r fuel
        if callee.isArrow then return (callee, false)
        else
          guarded (!callee.isChain)
          if (← isTyped) && (← atAngle) then
            let _ ← speculate do
              splitTypeArguments r
              guarded (← isPunct "(")
          if ← isPunct "(" then
            let e := Expr.construct (constructed callee) (← callArguments r)
            return (← links r start true false e limit, false)
          else return (.construct (constructed callee) [], true)
    else if ← isWord "super" then return (← superExpr r true, false)
    else if ← isWord "import" then return (← importExpr r true, false)
    else
      let e ← primary r
      if e.isArrow then return (e, false)
      else return (← links r start true false (← instantiated? r e) limit, false)

def operandRule (r : Rules) : Parse Expr := do
  let s ← get
  let start := s.start.pos
  if s.features.jsx && (← isPunct "<") then
    let (e, rest) ← r.markup s.start
    resume rest
    return e
  else if ← isWord "super" then superExpr r false
  else if ← isWord "import" then importExpr r false
  else
    let (callee, isBare) ← within (fun c => { c with wholeAngles := true }) (memberExpr r s.limit)
    if callee.isArrow then return callee
    else
      if (← isTyped) && (← atAngle) then
        let _ ← speculate do
          typeArguments r
          guarded (← isPunct "(")
      if isBare then
        guarded (!(← isPunct "("))
        return callee
      else if ← isPunct "(" then
        links r start false false (← callRest r start callee) s.limit
      else return callee

/-- A decorator after its sign: a name with members and calls, or an expression in parentheses. -/
def decoratorRule (r : Rules) : Parse Expr := do
  let start ← offset
  let e ← if ← eatPunct "(" then do
      let e ← r.expr
      punct ")"
      pure (Expr.paren e)
    else do
      let id ← identifier
      links r start false true (.ident id) (← get).limit
  let generic ← if (← isTyped) && (← isPunct "<") then do
      typeArguments r
      pure true
    else pure false
  if generic || (← isPunct "(") then
    let args ← callArguments r
    return .call e args ⟨start, ← lastStop⟩
  else return e

/-! ### Unary operators and whole expressions -/

/-- A type assertion in angle brackets before its operand. -/
def assertion (r : Rules) : Parse Expr := do
  punct "<"
  if ← eatWord "const" then
    closeAngle
    return .typed .const (← r.unary)
  else
    r.type
    closeAngle
    return .typed .angle (← r.unary)

def awaitExpr (r : Rules) : Parse Expr := do
  let c ← context
  advance
  guarded (!(← isPunct "*"))
  let isLone := (← isPunctOf [")", "]", ","]) || (← atEnd)
  guarded (!(isLone && !c.inAsync))
  require (!(c.inFunction && !c.inAsync))
  require (!(c.inParameters && !c.inFunction))
  return .await (← r.unary)

def Expr.inParens : Expr → Expr
  | .paren e => e.inParens
  | e => e

/-- Requires that an operand can be deleted: no name, and in typed code a member. -/
def checkDeleted (e : Expr) : Parse Unit := do
  match e with
  | .ident _ => require false
  | e =>
    if ← isTyped then
      match e.inParens with
      | .member _ _ => pure ()
      | .chainMember _ _ _ => pure ()
      | _ => require false

/-- An expression with its prefix and postfix operators. -/
def unaryRule (r : Rules) : Parse Expr := do
  let s ← get
  if s.features.typescript && !s.features.jsx && (← isPunct "<") then assertion r
  else if ← isPunctOf ["++", "--"] then
    let isIncrement ← isPunct "++"
    advance
    let e ← r.unary
    checkTarget true e
    return .update isIncrement true e
  else
    match unaryOp? s.token with
    | some op =>
      advance
      let e ← r.unary
      if op = .delete then checkDeleted e
      return .unary op e
    | none =>
      if ← isWord "await" then awaitExpr r
      else
        let e ← r.operand
        if e.isArrow then return e
        else if (← isPunctOf ["++", "--"]) && !(← newline) then
          checkTarget true e
          let isIncrement ← isPunct "++"
          advance
          return .update isIncrement false e
        else return e

/-- An arrow function from its type parameters on. -/
def genericArrow (r : Rules) : Parse Expr :=
  within (fun c => { c with expectColon := false }) do
    typeParameters r functionModifiers
    let t ← token
    guarded (t.isName || t.isPunct "(")
    modify fun s => { s with arrowStart := some s.start.pos }
    let e ← primary r
    guarded e.isArrow
    return e

/-- Whether an expression with operators is no target of an assignment. -/
def Expr.isOperation : Expr → Bool
  | .cond _ _ _ => true
  | .binary _ _ _ => true
  | .unary _ _ => true
  | .update _ _ _ => true
  | .arrow _ _ _ => true
  | _ => false

/-- An expression without commas at its top, in a given reading of angle brackets. -/
def assignExpr (r : Rules) : Parse Expr := do
  let generic ← if (← isTyped) && (← isPunct "<") then do
      if (← peek).1.isName then speculate (genericArrow r) else pure none
    else pure none
  match generic with
  | some e => return e
  | none =>
    if (← isWord "yield") && (← context).inGenerator then yieldExpr r
    else
      let t ← token
      let canBeArrow := t.isIdent || t.isWord "yield" || t.isPunct "(" || t.isWordOf strictWords
      modify fun s => { s with arrowStart := if canBeArrow then some s.start.pos else none }
      let left ← conditional r
      if left.isOperation then return left else assignment r left

/-- An expression without commas at its top. In typed code with markup, one that starts with an
angle bracket is only tried. -/
def assignRule (r : Rules) : Parse Expr := do
  let s ← get
  if s.features.jsx && s.features.typescript && (← isPunct "<") then
    within (fun c => { c with lenient := true }) (assignExpr r)
  else assignExpr r

end Script
end AtomicStyles
