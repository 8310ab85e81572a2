import AtomicStyles.Text.Blank

/-!
# Declarations

A declaration is a property and a value as they stand in a style sheet. Property
names of style objects are hyphenated, shorthands are split into longhands so that
each longhand has a class of its own, and some declarations are accompanied by
spellings for single browsers.

## Main definitions

* `Declaration.hyphenate` — the style-sheet spelling of a property name.
* `Declaration.components` — the parts of a value between blanks.
* `Declaration.expand` — the longhands of a shorthand.
* `Declaration.withVendors` — a declaration after its vendor spellings.
-/

namespace AtomicStyles

structure Declaration where
  property : String
  value : String
deriving Repr, DecidableEq, Inhabited

namespace Declaration

def css (d : Declaration) : String := d.property ++ ":" ++ d.value ++ ";"

/-- Puts a hyphen before every capital and lowers it. -/
def lowerCapitals : List Char → List Char
  | [] => []
  | c :: cs => if c.isUpper then '-' :: c.toLower :: lowerCapitals cs else c :: lowerCapitals cs

/-- The style-sheet spelling of a property name. A capital at the very start gets a hyphen only
where it can start a vendor name. Names that start with `--` stay as they are. -/
def hyphenate (property : String) : String :=
  match property.toList with
  | '-' :: '-' :: _ => property
  | 'm' :: 's' :: c :: cs =>
    String.ofList ((if c.isUpper then ['-'] else []) ++ 'm' :: 's' :: lowerCapitals (c :: cs))
  | c :: cs =>
    if c.isUpper then
      let start := if c == 'W' || c == 'M' || c == 'O' then ['-'] else []
      String.ofList (start ++ c.toLower :: lowerCapitals cs)
    else String.ofList (c :: lowerCapitals cs)
  | [] => ""

/-- Cuts a value at blanks outside parentheses and quotes. `part` holds the current component,
last character first. -/
def componentsFrom (depth : Nat) (quote : Option Char) (part : List Char) :
    List Char → List (List Char)
  | [] => if part.isEmpty then [] else [part.reverse]
  | c :: cs =>
    match quote with
    | some q => componentsFrom depth (if c == q then none else quote) (c :: part) cs
    | none =>
      if c == '"' || c == '\'' then componentsFrom depth (some c) (c :: part) cs
      else if c == '(' then componentsFrom (depth + 1) none (c :: part) cs
      else if c == ')' then componentsFrom (depth - 1) none (c :: part) cs
      else if Text.isBlank c && depth == 0 then
        if part.isEmpty then componentsFrom 0 none [] cs
        else part.reverse :: componentsFrom 0 none [] cs
      else componentsFrom depth none (c :: part) cs

/-- The parts of a value between blanks; function arguments and quoted strings stay whole. -/
def components (value : List Char) : List String :=
  (componentsFrom 0 none [] value).map String.ofList

/-- A value without a final `!important`, and the text that restores it. -/
def splitImportant (value : String) : String × String :=
  match Text.strip? "!important".toList.reverse value.toList.reverse with
  | some rest => (String.ofList (rest.dropWhile Text.isBlank).reverse, " !important")
  | none => (value, "")

/-- The longhands of a shorthand with four sides or corners. -/
def boxLonghands : String → Option (String × String × String × String)
  | "padding" => some ("padding-top", "padding-right", "padding-bottom", "padding-left")
  | "margin" => some ("margin-top", "margin-right", "margin-bottom", "margin-left")
  | "inset" => some ("top", "right", "bottom", "left")
  | "border-radius" =>
    some ("border-top-left-radius", "border-top-right-radius", "border-bottom-right-radius",
      "border-bottom-left-radius")
  | _ => none

/-- The longhands of a shorthand with two parts. -/
def pairLonghands : String → Option (String × String)
  | "overflow" => some ("overflow-x", "overflow-y")
  | "gap" => some ("row-gap", "column-gap")
  | "place-items" => some ("align-items", "justify-items")
  | "place-self" => some ("align-self", "justify-self")
  | "place-content" => some ("align-content", "justify-content")
  | _ => none

/-- The four values that one to four components stand for. -/
def fourValues : List String → Option (String × String × String × String)
  | [a] => some (a, a, a, a)
  | [a, b] => some (a, b, a, b)
  | [a, b, c] => some (a, b, c, b)
  | [a, b, c, d] => some (a, b, c, d)
  | _ => none

/-- The two values that one or two components stand for. -/
def twoValues : List String → Option (String × String)
  | [a] => some (a, a)
  | [a, b] => some (a, b)
  | _ => none

/-- The longhands of a shorthand. A value that refers to a variable, a radius with an elliptical
part, and a value with the wrong number of components stay as they are. -/
def expand (property value : String) : List Declaration :=
  let whole : List Declaration := [⟨property, value⟩]
  if Text.contains "var(".toList value.toList then whole
  else
    let (plain, important) := splitImportant value
    let parts := components plain.toList
    match boxLonghands property with
    | some (p, q, r, s) =>
      if property = "border-radius" && plain.toList.contains '/' then whole
      else match fourValues parts with
        | some (a, b, c, d) =>
          [⟨p, a ++ important⟩, ⟨q, b ++ important⟩, ⟨r, c ++ important⟩, ⟨s, d ++ important⟩]
        | none => whole
    | none =>
      match pairLonghands property with
      | some (p, q) =>
        match twoValues parts with
        | some (a, b) => [⟨p, a ++ important⟩, ⟨q, b ++ important⟩]
        | none => whole
      | none => whole

/-- The value with the keyword at its start replaced. -/
def swapKeyword (old new value : String) : String :=
  match Text.strip? old.toList value.toList with
  | some rest => new ++ String.ofList rest
  | none => value

def vendorSpellings (d : Declaration) : List Declaration :=
  let value := d.value
  match d.property, (splitImportant value).1 with
  | "display", "flex" =>
    [⟨"display", swapKeyword "flex" "-webkit-box" value⟩,
      ⟨"display", swapKeyword "flex" "-webkit-flex" value⟩]
  | "display", "inline-flex" =>
    [⟨"display", swapKeyword "inline-flex" "-webkit-inline-flex" value⟩]
  | "position", "sticky" => [⟨"position", swapKeyword "sticky" "-webkit-sticky" value⟩]
  | "background-clip", "text" => [⟨"-webkit-background-clip", value⟩]
  | "user-select", _ =>
    [⟨"-webkit-user-select", value⟩, ⟨"-moz-user-select", value⟩, ⟨"-ms-user-select", value⟩]
  | "hyphens", _ => [⟨"-webkit-hyphens", value⟩, ⟨"-ms-hyphens", value⟩]
  | "appearance", _ => [⟨"-webkit-appearance", value⟩, ⟨"-moz-appearance", value⟩]
  | "backdrop-filter", _ => [⟨"-webkit-backdrop-filter", value⟩]
  | "text-size-adjust", _ => [⟨"-webkit-text-size-adjust", value⟩]
  | "mask-image", _ => [⟨"-webkit-mask-image", value⟩]
  | _, _ => []

def withVendors (d : Declaration) : List Declaration := d.vendorSpellings ++ [d]

end Declaration
end AtomicStyles
