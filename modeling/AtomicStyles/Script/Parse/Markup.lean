import AtomicStyles.Script.Parse.Expressions

/-!
# Parsing: markup

Elements and fragments are read from cursors, since the text between tags has no
tokens. What is kept of an element is its name, the expressions of its attributes
and children, and the name of its closing tag, in this order.
-/

namespace AtomicStyles
namespace Script

open Parse

/-- The name of an element: its spelling and the expression it stands for. -/
structure TagName where
  text : String
  node : List Expr

/-- The rest of a markup name, which may hold hyphens. -/
def scanMarkupName (acc : List Char) (pos : Nat) : List Char → String × Cursor
  | [] => (String.ofList acc.reverse, ⟨[], pos⟩)
  | c :: cs =>
    if Text.isIdentPart c || c == '-' then scanMarkupName (c :: acc) (pos + c.utf8Size) cs
    else (String.ofList acc.reverse, ⟨c :: cs, pos⟩)

def markupName : Parse Ident := do
  let s ← get
  guarded (s.start.peek?.any Text.isIdentStart)
  let (name, rest) := scanMarkupName [] s.start.pos s.start.chars
  resume rest
  return ⟨name, s.start.pos⟩

/-- The members after the first name of an element. -/
def tagMembers (text : String) : Nat → Parse String
  | 0 => fail
  | fuel + 1 => do
    if ← eatPunct "." then
      let id ← markupName
      tagMembers (text ++ "." ++ id.name) fuel
    else return text

def tagName : Parse TagName := do
  let id ← markupName
  if ← eatPunct ":" then
    let inner ← markupName
    return ⟨id.name ++ ":" ++ inner.name, []⟩
  else if ← isPunct "." then
    let text ← tagMembers id.name (← get).limit
    return ⟨text, [.ident id]⟩
  else return ⟨id.name, [.tagName id]⟩

/-- Skips the text of an attribute up to its closing quote. -/
def skipQuoted (quote : Char) (pos : Nat) : List Char → Option Cursor
  | [] => none
  | c :: cs => if c == quote then some ⟨cs, pos + 1⟩ else skipQuoted quote (pos + c.utf8Size) cs

/-- The value of an attribute after its equals sign. -/
def attributeValue (r : Rules) : Parse (List Expr) := do
  let s ← get
  match skipTrivia .code false s.rest.pos s.rest.chars with
  | none => fail
  | some (c, _) =>
    match c.chars with
    | '"' :: cs =>
      match skipQuoted '"' (c.pos + 1) cs with
      | some rest =>
        resume rest
        return []
      | none => fail
    | '\'' :: cs =>
      match skipQuoted '\'' (c.pos + 1) cs with
      | some rest =>
        resume rest
        return []
      | none => fail
    | '<' :: _ =>
      let (e, rest) ← r.markup c
      resume rest
      return [e]
    | _ =>
      advance
      punct "\x7b"
      let _ ← eatPunct "..."
      let e ← Rules.enclosed r.expr
      punct "\x7d"
      return [e]

def markupAttribute (r : Rules) : Parse (List Expr) := do
  if ← eatPunct "\x7b" then
    punct "..."
    let e ← Rules.enclosed r.assign
    punct "\x7d"
    return [e]
  else
    let _ ← markupName
    if ← eatPunct ":" then
      let _ ← markupName
    if ← isPunct "=" then attributeValue r else return []

/-- The text between tags up to a brace or a tag. Closing signs in it are refused unless rules are
waived. -/
def skipText (lenient : Bool) (pos : Nat) : List Char → Option Cursor
  | [] => none
  | c :: cs =>
    if c == '\x7b' || c == '<' then some ⟨c :: cs, pos⟩
    else if !lenient && (c == '>' || c == '\x7d') then none
    else skipText lenient (pos + c.utf8Size) cs

/-- Fails unless the current token starts with `>`; gives the cursor after that sign. -/
def tagEnd : Parse Cursor := do
  let s ← get
  match s.token with
  | .punct p =>
    guarded (p.startsWith ">")
    return s.start.skip 1
  | _ => fail

/-- An expression in braces between tags, from the cursor at its brace. -/
def embedded (r : Rules) (c : Cursor) : Parse (List Expr × Cursor) := do
  resume (c.skip 1)
  if ← isPunct "\x7d" then return ([], (← get).start.skip 1)
  else
    let _ ← eatPunct "..."
    let e ← Rules.enclosed r.expr
    guarded (← isPunct "\x7d")
    return ([e], (← get).start.skip 1)

/-- The children of an element and its closing tag, from a cursor after its opening tag. -/
def children (r : Rules) (name : String) (c : Cursor) : Nat → Parse (List Expr × Cursor)
  | 0 => fail
  | fuel + 1 => do
    match skipText (← context).lenient c.pos c.chars with
    | none => fail
    | some c =>
      if c.peek? = some '\x7b' then
        let (es, c) ← embedded r c
        let (more, stop) ← children r name c fuel
        return (es ++ more, stop)
      else
        resume (c.skip 1)
        if ← isPunct "/" then
          advance
          match ← token with
          | .punct _ =>
            guarded (name = "")
            return ([], ← tagEnd)
          | _ =>
            let closing ← tagName
            guarded (closing.text = name)
            return (closing.node, ← tagEnd)
        else
          let (e, c) ← r.markup c
          let (more, stop) ← children r name c fuel
          return (e :: more, stop)

/-- An element or a fragment from the cursor at its opening sign; gives the cursor after it. -/
def markupRule (r : Rules) (c : Cursor) : Parse (Expr × Cursor) := do
  resume (c.skip 1)
  match ← token with
  | .punct _ =>
    let (es, stop) ← children r "" (← tagEnd) (← get).limit
    return (.markup es, stop)
  | _ =>
    let name ← tagName
    if (← isTyped) && (← atAngle) then typeArguments r
    let attributes ← many do
      match ← token with
      | .punct "\x7b" => return some (← markupAttribute r)
      | .punct _ => return none
      | .eof => fail
      | _ => return some (← markupAttribute r)
    let before := name.node ++ attributes.flatten
    if ← eatPunct "/" then return (.markup before, ← tagEnd)
    else
      let (es, stop) ← children r name.text (← tagEnd) (← get).limit
      return (.markup (before ++ es), stop)

end Script
end AtomicStyles
