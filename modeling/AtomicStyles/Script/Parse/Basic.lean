import AtomicStyles.Config
import AtomicStyles.Script.Syntax
import AtomicStyles.Script.Token

/-!
# Parsing: the state and the basic steps

A parser is a function from a context and a state to a result and a state, or to a
failure. A source either has a tree or it has none; why it has none is not recorded, so
that alternatives are tried in order from the same state.

The state holds the current token with the cursors at its start and its end. The context
decides which words are reserved and which statements are allowed.

Some rules of the language are about trees that can be built all the same, such as the
rule that a label is declared once. They are enforced by `Parse.require`, which is
waived while a reading is only tried (`Parse.speculate`).

Grammar rules that refer to each other do so through a record `Rules`, which stands
for the rules with one step less to go. That bounds the nesting of any tree by the
number of steps given at the start.
-/

namespace AtomicStyles
namespace Script

/-- What surrounds the current token. -/
structure Context where
  /-- Whether `in` is an operator here. -/
  allowIn : Bool := false
  inFunction : Bool := false
  inAsync : Bool := false
  inGenerator : Bool := false
  /-- Whether the parameters of a function are being read. -/
  inParameters : Bool := false
  /-- Whether a function other than an arrow, or a class, is around. -/
  hasNewTarget : Bool := false
  /-- Whether a method is around. -/
  hasSuper : Bool := false
  /-- Whether the class around extends another. -/
  hasBase : Bool := false
  /-- Whether the class around is abstract. -/
  inAbstract : Bool := false
  canBreak : Bool := false
  canContinue : Bool := false
  /-- Whether a branch of a conditional expression is around. -/
  inConditional : Bool := false
  /-- Whether a colon ahead belongs to a conditional expression. -/
  expectColon : Bool := false
  /-- Whether what is read is only declared, and stands elsewhere. -/
  inDeclare : Bool := false
  /-- Whether the value of a field or an initializer of a class is being read. -/
  inField : Bool := false
  /-- Whether the first part of a `for` loop is being read, and whether the loop awaits. -/
  inLoopHead : Bool := false
  inAwaitHead : Bool := false
  /-- Whether a conditional type must not start here. -/
  plainTypes : Bool := false
  /-- Whether angle brackets that stand together are not taken apart. -/
  wholeAngles : Bool := false
  /-- Whether rules about trees that can be built are waived. -/
  lenient : Bool := false
  labels : List String := []

/-- The state of a parser. -/
structure State where
  features : Features
  /-- A bound on the length of any list in the source. -/
  limit : Nat
  token : Token := .eof
  /-- The cursor at the start of the token. -/
  start : Cursor
  /-- The cursor after the token. -/
  rest : Cursor
  /-- Whether a line ended before the token. -/
  newline : Bool := true
  /-- The byte offset at which the token before ended. -/
  lastStop : Nat := 0
  /-- The byte offset of the last place at which an arrow function could start. -/
  arrowStart : Option Nat := none
  /-- The names mentioned in types, last first. -/
  typeNames : List String := []

namespace Token

def isPunct (p : String) : Token → Bool
  | .punct q => q == p
  | _ => false

def isPunctOf (ps : List String) : Token → Bool
  | .punct q => ps.contains q
  | _ => false

/-- Whether a token is a keyword or another word with a meaning of its own. -/
def isWord (w : String) : Token → Bool
  | .word v false => v == w
  | _ => false

/-- Whether a token is one of some words with a meaning of their own. -/
def isWordOf (ws : List String) : Token → Bool
  | .word v false => ws.contains v
  | _ => false

def isName : Token → Bool
  | .word _ _ => true
  | _ => false

/-- Whether a token is a word that is not reserved. -/
def isIdent : Token → Bool
  | .word w escaped => escaped || !isReserved w
  | _ => false

def isString : Token → Bool
  | .str _ => true
  | _ => false

def isNumber : Token → Bool
  | .num _ => true
  | _ => false

end Token

abbrev Parse := ReaderT Context (StateT State Option)

namespace Parse

def fail {α : Type} : Parse α := fun _ _ => none

/-- Fails unless a condition holds. -/
def guarded (b : Bool) : Parse Unit := if b then pure () else fail

def token : Parse Token := return (← get).token

def context : Parse Context := read

/-- Fails unless a condition holds or the rules about built trees are waived. -/
def require (b : Bool) : Parse Unit := do guarded (b || (← context).lenient)

/-- Reads the token at a cursor, after blanks. -/
def resume (c : Cursor) : Parse Unit := fun _ s => do
  let (start, newline) ← skipTrivia .code false c.pos c.chars
  let (token, rest) ← Token.scan start s.limit
  return ((), { s with token, start, rest, newline, lastStop := c.pos })

/-- Goes to the next token. -/
def advance : Parse Unit := do resume (← get).rest

/-- The byte offset of the current token. -/
def offset : Parse Nat := return (← get).start.pos

/-- The byte offset at which the last token ended. -/
def lastStop : Parse Nat := return (← get).lastStop

/-- Whether a line ended before the current token. -/
def newline : Parse Bool := return (← get).newline

def isTyped : Parse Bool := return (← get).features.typescript

/-- Runs a parser under a changed context. -/
def within {α : Type} (f : Context → Context) (p : Parse α) : Parse α := fun c => p (f c)

/-- The result of a parser, or `none` where it fails. -/
def attempt {α : Type} (p : Parse α) : Parse (Option α) := fun c s =>
  match p c s with
  | none => some (none, s)
  | some (a, s') => some (some a, s')

/-- The result of a reading that is only tried. -/
def speculate {α : Type} (p : Parse α) : Parse (Option α) :=
  attempt (within (fun c => { c with lenient := true }) p)

/-- Whether a reading would succeed here; reads nothing. -/
def ahead {α : Type} (p : Parse α) : Parse Bool := fun c s =>
  some ((p { c with lenient := true } s).isSome, s)

/-- The token after the current one, and whether a line ends before it. -/
def peek : Parse (Token × Bool) := fun c s =>
  match advance c s with
  | none => some ((.eof, false), s)
  | some ((), s') => some ((s'.token, s'.newline), s)

/-! ### Punctuators and words -/

def isPunct (p : String) : Parse Bool := return (← token).isPunct p

def isPunctOf (ps : List String) : Parse Bool := return (← token).isPunctOf ps

/-- Whether the current token is a word with a meaning of its own. -/
def isWord (w : String) : Parse Bool := return (← token).isWord w

def peekPunct (p : String) : Parse Bool := return (← peek).1.isPunct p

/-- Whether the next token is a word with a meaning of its own. -/
def peekWord (w : String) : Parse Bool := return (← peek).1.isWord w

/-- Whether the next token is a word with a meaning of its own on the same line. -/
def peekWordHere (w : String) : Parse Bool := do
  let (next, nextLine) ← peek
  return next.isWord w && !nextLine

def eatPunct (p : String) : Parse Bool := do
  if ← isPunct p then
    advance
    return true
  else return false

def eatWord (w : String) : Parse Bool := do
  if ← isWord w then
    advance
    return true
  else return false

def punct (p : String) : Parse Unit := do
  guarded (← isPunct p)
  advance

def word (w : String) : Parse Unit := do
  guarded (← isWord w)
  advance

/-- Whether a statement can end before the current token. -/
def atEnd : Parse Bool := do
  match ← token with
  | .eof => return true
  | .punct p => return p == ";" || p == "\x7d" || (← newline)
  | _ => newline

/-- The end of a statement: a semicolon, or a place where one is understood. -/
def semicolon : Parse Unit := do
  guarded (← atEnd)
  let _ ← eatPunct ";"

/-- Words that are identifiers only where rules about built trees are waived. -/
def strictWords : List String :=
  ["enum", "implements", "interface", "let", "package", "private", "protected", "public", "static",
    "yield"]

/-- An identifier. Where types are allowed `this` is the name of a parameter. -/
def identifier : Parse Ident := do
  let c ← context
  match ← token with
  | .word w escaped =>
    if !escaped then
      if strictWords.contains w then require false
      else if w == "this" then guarded (← isTyped)
      else if w == "await" then guarded c.inDeclare
      else guarded (!isReserved w)
    require (!(w == "arguments" && c.inField))
    let pos ← offset
    advance
    return ⟨w, pos⟩
  | _ => fail

/-- Whether a name must not be bound or assigned. -/
def isFixedName (name : String) : Bool := name == "eval" || name == "arguments"

/-- An identifier that can be bound. -/
def bindingIdentifier : Parse Ident := do
  let id ← identifier
  require (!isFixedName id.name)
  return id

/-- Whether the current token is a word that is not reserved. -/
def atIdent : Parse Bool := return (← token).isIdent

/-- The name of a function or class that can be without one. -/
def optionalName : Parse (Option Ident) := do
  if ← atIdent then return some (← bindingIdentifier) else return none

def anyWord : Parse Ident := do
  match ← token with
  | .word w _ =>
    let pos ← offset
    advance
    return ⟨w, pos⟩
  | _ => fail

/-- A private name: a sign and any word right after it. -/
def privateName : Parse Ident := do
  punct "#"
  guarded ((← get).start.pos == (← get).lastStop)
  anyWord

def string : Parse String := do
  match ← token with
  | .str s =>
    advance
    return s
  | _ => fail

/-- Records a name mentioned in a type. -/
def note (name : String) : Parse Unit :=
  modify fun s => { s with typeNames := name :: s.typeNames }

/-! ### Repetition -/

/-- Repeats a parser until it gives `none`; `fuel` bounds the number of items. -/
def manyFuel {α : Type} (p : Parse (Option α)) : Nat → Parse (List α)
  | 0 => fail
  | fuel + 1 => do
    match ← p with
    | none => return []
    | some a => return a :: (← manyFuel p fuel)

/-- Repeats a parser until it gives `none`. -/
def many {α : Type} (p : Parse (Option α)) : Parse (List α) := do manyFuel p (← get).limit

/-- Items separated by commas up to a place where the list ends; a comma may stand after the
last one. -/
def itemsUntil {α : Type} (stop : Parse Bool) (p : Parse α) : Parse (List α) :=
  many do
    if ← stop then return none
    else
      let a ← p
      if !(← eatPunct ",") then guarded (← stop)
      return some a

/-- Items separated by commas up to a closing punctuator, which is read; a comma may stand after
the last one. -/
def commaList {α : Type} (close : String) (p : Parse α) : Parse (List α) := do
  let items ← itemsUntil (isPunct close) p
  punct close
  return items

/-! ### Angle brackets of types -/

/-- Whether the current token is `>`, or starts with it where longer punctuators are taken
apart. -/
def atCloseAngle : Parse Bool := do
  match ← token with
  | .punct p => return p == ">" || (p.startsWith ">" && !(← context).wholeAngles)
  | _ => return false

/-- Reads one `>`, also as the beginning of a longer punctuator. -/
def closeAngle : Parse Unit := do
  guarded (← atCloseAngle)
  resume ((← get).start.skip 1)

/-- Whether the current token starts type arguments. -/
def atAngle : Parse Bool := isPunctOf ["<", "<<"]

/-- Reads one `<`, also as the beginning of `<<`. -/
def openAngle : Parse Unit := do
  guarded (← atAngle)
  resume ((← get).start.skip 1)

end Parse

open Parse in
/-- A list between angle brackets; a comma may stand after the last item. -/
def angleList {α : Type} (p : Parse α) : Parse (List α) := do
  openAngle
  let items ← itemsUntil atCloseAngle p
  closeAngle
  return items

/-- The grammar rules that refer to each other. -/
structure Rules where
  /-- An expression without commas at its top. -/
  assign : Parse Expr
  unary : Parse Expr
  /-- An expression without operators: a name, a literal and so on, with members and calls. -/
  operand : Parse Expr
  /-- A decorator after its sign. -/
  decorator : Parse Expr
  type : Parse Unit
  /-- A type that is no conditional type. -/
  plainType : Parse Unit
  pattern : Parse Pat
  /-- A statement; the flag tells whether a declaration may stand here. -/
  stmt : Bool → Parse Stmt
  item : Parse Item
  markup : Cursor → Parse (Expr × Cursor)

/-- Rules that accept nothing. -/
def Rules.exhausted : Rules :=
  ⟨Parse.fail, Parse.fail, Parse.fail, Parse.fail, Parse.fail, Parse.fail, Parse.fail,
    fun _ => Parse.fail, Parse.fail, fun _ => Parse.fail⟩

namespace Rules

/-- An expression with commas at its top. -/
def expr (r : Rules) : Parse Expr := do
  let e ← r.assign
  if ← Parse.isPunct "," then
    let more ← Parse.many do
      if ← Parse.eatPunct "," then return some (← r.assign) else return none
    return .sequence (e :: more)
  else return e

/-- Code in which `in` is an operator. -/
def withIn {α : Type} (p : Parse α) : Parse α :=
  Parse.within (fun c => { c with allowIn := true }) p

/-- Code between brackets of some kind, where `in` is an operator and no colon is awaited. -/
def enclosed {α : Type} (p : Parse α) : Parse α :=
  Parse.within (fun c => { c with allowIn := true, expectColon := false }) p

end Rules
end Script
end AtomicStyles
