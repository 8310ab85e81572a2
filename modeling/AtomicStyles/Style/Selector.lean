import AtomicStyles.Style.Group
import AtomicStyles.Text.Blank

/-!
# Selectors and at-rules

A key of a style object whose value is an object opens a context: an at-rule, or one
context for each selector of a comma-separated list. In a selector `&` stands for
the selector built so far; a selector without `&` attaches to it when it is a
pseudo-class or an attribute test and is a descendant of it otherwise.

## Main definitions

* `Segment` — one step of the context a declaration applies in.
* `Nesting.ofKey` — what a key opens.
* `Selector.resolve` — the selector of a class in a context.
* `Selector.group` — the group of the rules of a context.
-/

namespace AtomicStyles

inductive Segment where
  /-- A selector in which `&` stands for the selector built so far. -/
  | selector (text : String)
  /-- An at-rule with its condition, such as `@media (min-width: 100px)`. -/
  | atRule (condition : String)
deriving Repr, DecidableEq, Inhabited

namespace Selector

/-- Whether a character may stand in the name of an at-rule or a pseudo-class. -/
def isNameChar (c : Char) : Bool := c.isAlphanum || c == '-'

/-- Cuts a selector list at the commas outside parentheses and brackets; `part` holds the
current selector, last character first. -/
def splitList (depth : Nat) (part : List Char) : List Char → List (List Char)
  | [] => [part.reverse]
  | c :: cs =>
    if c == '(' || c == '[' then splitList (depth + 1) (c :: part) cs
    else if c == ')' || c == ']' then splitList (depth - 1) (c :: part) cs
    else if c == ',' && depth == 0 then part.reverse :: splitList 0 [] cs
    else splitList depth (c :: part) cs

/-- Makes the reference to the parent explicit. -/
def normalize (selector : List Char) : List Char :=
  let s := Text.collapse selector
  match s with
  | [] => []
  | c :: _ =>
    if s.contains '&' then s
    else if c == ':' || c == '[' then '&' :: s
    else '&' :: ' ' :: s

/-- Replaces every `&` by `parent`. -/
def fill (parent : List Char) : List Char → List Char
  | [] => []
  | c :: cs => if c == '&' then parent ++ fill parent cs else c :: fill parent cs

/-- The selector of a context whose innermost `&` is `base`. -/
def resolveFrom (base : List Char) : List Segment → List Char
  | [] => base
  | .selector s :: path => resolveFrom (fill base s.toList) path
  | .atRule _ :: path => resolveFrom base path

def resolve (className : String) (path : List Segment) : String :=
  String.ofList (resolveFrom ('.' :: className.toList) path)

/-- The at-rules of a context, outermost first. -/
def atRules (path : List Segment) : List String :=
  path.filterMap fun
    | .atRule p => some p
    | .selector _ => none

/-- The selectors of a context, outermost first. -/
def selectors (path : List Segment) : List String :=
  path.filterMap fun
    | .selector s => some s
    | .atRule _ => none

/-- The names after single colons; `before` is the character before the text. -/
def pseudoNames (before : Char) : List Char → List String
  | [] => []
  | c :: cs =>
    if c == ':' && before != ':' && cs.head? != some ':' then
      String.ofList (cs.takeWhile isNameChar) :: pseudoNames c cs
    else pseudoNames c cs

/-- Whether a text starts with a name that does not go on. -/
def startsWithName (name : String) (cs : List Char) : Bool :=
  (Text.strip? name.toList cs).any fun rest => !rest.head?.any isNameChar

def atRuleGroup (rule : String) : Group :=
  match Group.atRules.find? fun e => startsWithName e.1 (rule.toList.drop 1) with
  | some e => e.2
  | none => .default

/-- The group of the rules of a context: that of the outermost at-rule, otherwise the last in
the cascade among those of the pseudo-classes of the selector. -/
def group (path : List Segment) : Group :=
  match atRules path with
  | p :: _ => atRuleGroup p
  | [] => ((pseudoNames ' ' (resolveFrom ['.'] path)).filterMap Group.ofPseudo?).foldl Group.max .default

end Selector

/-- What a key with an object under it opens. -/
inductive Nesting where
  | atRule (condition : String)
  | selectors (list : List String)
  | invalid
deriving Repr, DecidableEq

namespace Nesting

/-- The characters a selector without `&` may start with. -/
def selectorStarts : List Char := [':', '[', '>', '+', '~', '*', '.', '#']

/-- The at-rule of a key, its `@` dropped. -/
def ofAtRule (cs : List Char) : Nesting :=
  let name := String.ofList (cs.takeWhile Selector.isNameChar)
  match Group.ofAtRuleName? name with
  | none => .invalid
  | some _ =>
    match Text.collapse (cs.dropWhile Selector.isNameChar) with
    | [] => .atRule ("@" ++ name)
    | condition => .atRule ("@" ++ name ++ " " ++ String.ofList condition)

def ofKey (key : String) : Nesting :=
  match (Text.trim key).toList with
  | [] => .invalid
  | '@' :: cs => ofAtRule cs
  | c :: cs =>
    if (c :: cs).contains '&' || selectorStarts.contains c then
      match ((Selector.splitList 0 [] (c :: cs)).map Selector.normalize).filter (!·.isEmpty) with
      | [] => .invalid
      | list => .selectors (list.map String.ofList)
    else .invalid

/-- The contexts a key opens; `none` for a key that opens none. -/
def segments? : Nesting → Option (List Segment)
  | .atRule p => some [.atRule p]
  | .selectors list => some (list.map .selector)
  | .invalid => none

end Nesting
end AtomicStyles
