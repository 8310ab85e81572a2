import AtomicStyles.Script.Names
import AtomicStyles.Script.Parse.Basic

/-!
# Parsing: patterns and parameters

Binding patterns are read as such. Targets of assignments and parameters of arrow
functions are read as expressions first and turned into patterns once the assignment
or the arrow shows itself (`Expr.toPat`).
-/

namespace AtomicStyles
namespace Script

open Parse

/-! ### Keys -/

def computedKey (r : Rules) : Parse Key := do
  punct "["
  let e ← Rules.withIn r.assign
  punct "]"
  return .computed e

def propertyKey (r : Rules) : Parse Key := do
  match ← token with
  | .word w _ =>
    advance
    return .name w
  | .str s =>
    advance
    return .str s
  | .num x =>
    advance
    return .num x
  | .bigInt =>
    advance
    return .bigInt
  | .punct "[" => computedKey r
  | _ => fail

/-! ### Targets of assignments -/

/-- Whether a member of the expression can be assigned to: no optional link may be in it. -/
def Expr.isSimpleTarget : Expr → Bool
  | .ident id => !isFixedName id.name
  | .member (.member e k) _ => (Expr.member e k).isSimpleTarget
  | .member (.chainMember _ _ _) _ => false
  | .member (.chainCall _ _ _) _ => false
  | .member _ _ => true
  | .superMember _ => true
  | .paren e => e.isSimpleTarget
  | .typed .const _ => false
  | .typed _ e => e.isSimpleTarget
  | .instantiated e => e.isSimpleTarget
  | _ => false

/-- Whether an expression has the form of a single target, be it a valid one or not. -/
def Expr.hasTargetForm : Expr → Bool
  | .ident _ => true
  | .member _ _ => true
  | .superMember _ => true
  | .chainMember _ _ _ => true
  | .chainCall _ _ _ => true
  | .paren _ => true
  | .typed .const _ => false
  | .typed _ _ => true
  | .instantiated _ => true
  | _ => false

/-- Whether typed code passes an expression as a target although it is none. -/
def Expr.isToleratedTarget (toleratesCalls : Bool) : Expr → Bool
  | .null | .bool _ | .num _ | .str _ | .bigInt | .regex => true
  | .binary _ _ _ => true
  | .call _ _ _ => toleratesCalls
  | .paren e => e.isToleratedTarget toleratesCalls
  | _ => false

def checkTarget (toleratesCalls : Bool) (e : Expr) : Parse Unit := do
  if ← isTyped then
    match e with
    | .ident id => require (!isFixedName id.name)
    | e => require (e.isSimpleTarget || e.isToleratedTarget toleratesCalls)
  else require e.isSimpleTarget

/-- A single target as a pattern. -/
def Expr.toSinglePat : Expr → Pat
  | .ident id => .ident id
  | e => .expr e

/-- What an expression is turned into a pattern for: the target of an assignment, a part of such a
target, or names to bind. -/
inductive PatRole where
  | target
  | part
  | binding
deriving DecidableEq

def PatRole.inner : PatRole → PatRole
  | .binding => .binding
  | _ => .part

/-- Whether an expression other than a pattern can be a part of a target. -/
def Expr.isPartForm : Expr → Bool
  | .member _ _ | .superMember _ | .call _ _ _ | .construct _ _ | .null | .bool _ | .num _ | .str _
  | .bigInt | .regex | .ident _ | .func _ _ | .cls _ _ | .paren _ | .template _ _ => true
  | .typed .as _ => true
  | _ => false

/-- A single target in its role, not an array or object. -/
def singleTarget (role : PatRole) (e : Expr) : Parse Pat := do
  match role, e with
  | .target, e =>
    checkTarget false e
    return e.toSinglePat
  | .part, .assign .set p v => return .withDefault p v
  | .part, e =>
    require (e.isPartForm && e.isSimpleTarget)
    return e.toSinglePat
  | .binding, .assign .set p v => return .withDefault p v
  | .binding, .ident id => return .ident id
  | .binding, _ =>
    require false
    return .hole

def Expr.isDefault : Expr → Bool
  | .assign _ _ _ => true
  | _ => false

/-- The items of an array pattern without the missing ones at its end. -/
def dropHoles (items : List Expr) : List Expr :=
  (items.reverse.dropWhile fun
    | .hole => true
    | _ => false).reverse

mutual

/-- The pattern an expression spells in some role. `fuel` bounds the depth. -/
def Expr.toPat (role : PatRole) (e : Expr) : Nat → Parse Pat
  | 0 => fail
  | fuel + 1 =>
    match e with
    | .array items => do
      let kept := dropHoles items
      return .array (← Expr.toPats role.inner (kept.length == items.length) kept fuel)
    | .object props => do return .object (← Property.toPats role.inner props fuel)
    | e => singleTarget role e

/-- The items of an array pattern; a rest can only stand last, without a comma after it. -/
def Expr.toPats (role : PatRole) (restCanEnd : Bool) (items : List Expr) : Nat → Parse (List Pat)
  | 0 => fail
  | fuel + 1 =>
    match items with
    | [] => return []
    | [.spread e hasComma] => do
      require (restCanEnd && !hasComma && !e.isDefault)
      return [.rest (← e.toPat role fuel)]
    | .spread _ _ :: es => do
      require false
      Expr.toPats role restCanEnd es fuel
    | .hole :: es => do return .hole :: (← Expr.toPats role restCanEnd es fuel)
    | e :: es => do return (← e.toPat role fuel) :: (← Expr.toPats role restCanEnd es fuel)

/-- The properties of an object pattern; a rest can only stand last, without a comma after it. -/
def Property.toPats (role : PatRole) (props : List Property) : Nat → Parse (List PatProperty)
  | 0 => fail
  | fuel + 1 =>
    match props with
    | [] => return []
    | .spread e hasComma :: ps => do
      require (ps.isEmpty && !hasComma && !e.isDefault)
      let p ← match role, e with
        | .binding, .ident id => pure (Pat.ident id)
        | .binding, _ => do
          require false
          pure Pat.hole
        | role, e => e.toPat role fuel
      return .rest p :: (← Property.toPats role ps fuel)
    | .keyValue k e :: ps => do
      return .keyValue k (← e.toPat role fuel) :: (← Property.toPats role ps fuel)
    | .shorthand id :: ps => do
      return .shorthand id none :: (← Property.toPats role ps fuel)
    | .shorthandDefault id e :: ps => do
      return .shorthand id (some e) :: (← Property.toPats role ps fuel)
    | _ :: _ => fail

end

/-- The pattern an expression spells in some role. -/
def reinterpret (role : PatRole) (e : Expr) : Parse Pat := do
  e.toPat role (2 * (← get).limit + 2)

def assignTarget (e : Expr) : Parse Pat := do
  match ← reinterpret .target e with
  | .expr e =>
    guarded e.hasTargetForm
    return .expr e
  | p => return p

/-- The target of an assignment that combines the old value with the new. -/
def updateTarget (e : Expr) : Parse Pat := do
  require e.isSimpleTarget
  guarded e.hasTargetForm
  return e.toSinglePat

/-! ### Binding patterns -/

/-- A pattern with a default after it, if there is one. -/
def withDefault (r : Rules) (p : Pat) : Parse Pat := do
  if ← eatPunct "=" then return .withDefault p (← Rules.withIn r.assign) else return p

/-- Reads a comma between the items of a pattern; none may stand after a rest. -/
def patternComma (close : String) (isRest : Bool) : Parse Unit := do
  if !(← isPunct close) then
    punct ","
    require (!isRest)

/-- Reads a question mark after a pattern, which only a declaration can have. -/
def declaredMark : Parse Unit := do
  if (← context).inDeclare then
    let _ ← eatPunct "?"

def arrayPattern (r : Rules) : Parse Pat := do
  punct "["
  let items ← many do
    if ← isPunct "]" then return none
    else if ← eatPunct "," then return some Pat.hole
    else if ← eatPunct "..." then
      let p ← r.pattern
      patternComma "]" true
      return some (.rest p)
    else
      let p ← withDefault r (← r.pattern)
      patternComma "]" false
      return some p
  punct "]"
  declaredMark
  return .array items

def patternProperty (r : Rules) : Parse PatProperty := do
  if ← eatPunct "..." then
    match ← r.pattern with
    | .ident id =>
      patternComma "\x7d" true
      return .rest (.ident id)
    | _ => fail
  else
    let pos ← offset
    let key ← propertyKey r
    let property ← if ← eatPunct ":" then do
        pure (PatProperty.keyValue key (← withDefault r (← r.pattern)))
      else
        match key with
        | .name w =>
          if ← eatPunct "=" then do
            pure (PatProperty.shorthand ⟨w, pos⟩ (some (← Rules.withIn r.assign)))
          else pure (.shorthand ⟨w, pos⟩ none)
        | _ => fail
    patternComma "\x7d" false
    return property

def objectPattern (r : Rules) : Parse Pat := do
  punct "\x7b"
  let props ← many do
    if ← isPunct "\x7d" then return none else return some (← patternProperty r)
  punct "\x7d"
  declaredMark
  return .object props

/-- A binding pattern without type and default. -/
def bindingPattern (r : Rules) : Parse Pat := do
  match ← token with
  | .punct "[" => arrayPattern r
  | .punct "\x7b" => objectPattern r
  | _ => return .ident (← bindingIdentifier)

/-! ### Parameters -/

def optionalType (r : Rules) : Parse Unit := do
  if ← isTyped then
    if ← eatPunct ":" then r.type

def callArguments (r : Rules) : Parse (List Expr) := do
  punct "("
  Rules.enclosed (commaList ")" do
    if ← eatPunct "..." then return .spread (← r.assign) false else r.assign)

/-- Decorators, each after its sign. -/
def decorators (r : Rules) : Parse (List Expr) := do
  if (← get).features.decorators then
    many do
      if ← eatPunct "@" then return some (← r.decorator) else return none
  else return []

/-- Whether a word before a member or parameter modifies it: a name follows on the same line. -/
def modifierFollows : Parse Bool := do
  let (next, nextLine) ← peek
  return !nextLine && (next.isPunctOf ["[", "\x7b", "*", "...", "#"] || next.isName
    || next.isString || next.isNumber)

def modifier? (ws : List String) : Parse (Option String) := do
  match ← token with
  | .word w false =>
    if (← isTyped) && ws.contains w then
      if ← modifierFollows then
        advance
        return some w
      else return none
    else return none
  | _ => return none

/-- Whether one of the words stands here that make a constructor parameter a field, before a
name or pattern; the word is read unless a line ends after it. -/
def accessWord : Parse Bool := do
  let ws := ["public", "protected", "private", "readonly"]
  let (next, _) ← peek
  if (← isTyped) && (← token).isWordOf ws && (next.isName || next.isPunctOf ["\x7b", "["]) then
    let _ ← modifier? ws
    return true
  else return false

/-- A parameter that does not collect the rest. -/
def plainParameter (r : Rules) : Parse Pat := do
  let typed ← isTyped
  let isModified ← accessWord
  let p ← r.pattern
  let optional ← if typed then eatPunct "?" else pure false
  optionalType r
  let p ← if ← eatPunct "=" then do
      require (!optional)
      let e ← r.assign
      require (!(← context).inDeclare)
      pure (Pat.withDefault p e)
    else pure p
  require (!isModified)
  return p

/-- A parameter that collects the rest, after its dots. -/
def restParameter (r : Rules) : Parse Pat := do
  let p ← r.pattern
  let p ← if ← eatPunct "=" then do
      require false
      pure (Pat.withDefault p (← r.assign))
    else pure p
  optionalType r
  if ← isTyped then
    if ← eatPunct "?" then require false
  return .rest p

/-- A parameter of a constructor, which can be a field too: its name then, and not a pattern. -/
def constructorParameter (r : Rules) : Parse (Pat × Bool) := do
  let access ← modifier? ["public", "protected", "private", "in", "out"]
  require (!(access == some "in" || access == some "out"))
  let overrides ← modifier? ["override"]
  let isReadonly ← modifier? ["readonly"]
  let p ← plainParameter r
  if access.isSome || overrides.isSome || isReadonly.isSome then
    match p with
    | .ident _ => return (p, true)
    | .withDefault _ _ => return (p, true)
    | _ => fail
  else return (p, false)

def decoratedPat (ds : List Expr) (p : Pat) : Pat := if ds.isEmpty then p else .decorated ds p

/-- Parameters up to the closing parenthesis, which is left; each with a mark that it is a
field. -/
def parameterItems (r : Rules) (inConstructor : Bool) : Parse (List (Pat × Bool)) :=
  many do
    if ← isPunct ")" then return none
    else
      let ds ← decorators r
      let (p, isField) ← if ← eatPunct "..." then do pure (← restParameter r, false)
        else if inConstructor then constructorParameter r
        else do pure (← plainParameter r, false)
      patternComma ")" p.isRest
      return some (decoratedPat ds p, isField)

/-- The parameters of a function in parentheses. -/
def parameters (r : Rules) : Parse (List Pat) := do
  punct "("
  let ps ← parameterItems r false
  punct ")"
  return ps.map Prod.fst

/-- Whether a parameter is named `this`. -/
def Pat.isThis : Pat → Bool
  | .ident id => id.name == "this"
  | .decorated _ (.ident id) => id.name == "this"
  | _ => false

/-- The parameters that are not named `this`. -/
def withoutThis (ps : List Pat) : List Pat := ps.filter fun p => !p.isThis

/-- Whether all parameters are plain names. -/
def isSimpleList (ps : List Pat) : Bool :=
  ps.all fun
    | .ident _ => true
    | .decorated _ (.ident _) => true
    | _ => false

def Pat.hasDefault : Pat → Bool
  | .withDefault _ _ => true
  | .decorated _ p => p.hasDefault
  | _ => false

end Script
end AtomicStyles
