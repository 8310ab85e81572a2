import AtomicStyles.Decimal.Layout
import AtomicStyles.Json.Basic

/-!
# Writing JSON

Strings escape the quote, the backslash and the characters below U+0020. Numbers are
written with the fewest digits that read back; a whole number keeps a `.0`, and the
exponent form starts at `1e16` above and at `1e-6` below.

## Main definitions

* `Json.quote` — a text as a JSON string.
* `Json.compact` — a document without blanks.
* `Json.pretty` — a document on lines of their own, indented by two spaces a level.
-/

namespace AtomicStyles
namespace Json

/-- The lowercase hexadecimal digit of a number below 16. -/
def hexChar (d : Nat) : Char :=
  if d < 10 then Char.ofNat (48 + d) else Char.ofNat (87 + d)

/-- A character as it stands inside a string. -/
def escapeChar (c : Char) : List Char :=
  if c == '"' then ['\\', '"']
  else if c == '\\' then ['\\', '\\']
  else if c == '\x08' then ['\\', 'b']
  else if c == '\x0c' then ['\\', 'f']
  else if c == '\n' then ['\\', 'n']
  else if c == '\r' then ['\\', 'r']
  else if c == '\t' then ['\\', 't']
  else if c.toNat < 32 then ['\\', 'u', '0', '0', hexChar (c.toNat / 16), hexChar (c.toNat % 16)]
  else [c]

def quote (s : String) : String :=
  String.ofList ('"' :: s.toList.flatMap escapeChar ++ ['"'])

/-- The layout of numbers that are not integers. -/
def numberLayout : Decimal.Layout :=
  { leastPoint := -4, greatestPoint := 16, keepFraction := true, plusSign := false
    tie := .toEven }

/-- The text of a binary64 number; the infinities and the NaNs have none and are `null`. -/
def realText (x : Float) : String :=
  match Decimal.Binary.ofFloat? x with
  | none => "null"
  | some b =>
    if b.mantissa = 0 then (if b.negative then "-0.0" else "0.0")
    else String.ofList (numberLayout.render b)

mutual

def compact : Json → String
  | null => "null"
  | bool b => if b then "true" else "false"
  | int n => toString n
  | real x => realText x
  | str s => quote s
  | arr items => "[" ++ compactItems items ++ "]"
  | obj fields => "\x7b" ++ compactFields fields ++ "\x7d"

/-- Items separated by commas. -/
def compactItems : List Json → String
  | [] => ""
  | [v] => compact v
  | v :: vs => compact v ++ "," ++ compactItems vs

/-- Fields separated by commas. -/
def compactFields : List (String × Json) → String
  | [] => ""
  | [(k, v)] => quote k ++ ":" ++ compact v
  | (k, v) :: fs => quote k ++ ":" ++ compact v ++ "," ++ compactFields fs

end

/-- Two blanks for every level. -/
def indent (level : Nat) : String := String.ofList (List.replicate (2 * level) ' ')

mutual

/-- A document whose items and fields stand on lines of their own. -/
def prettyAt (level : Nat) : Json → String
  | arr [] => "[]"
  | obj [] => "\x7b\x7d"
  | arr (v :: vs) => "[\n" ++ prettyItems (level + 1) (v :: vs) ++ "\n" ++ indent level ++ "]"
  | obj (f :: fs) => "\x7b\n" ++ prettyFields (level + 1) (f :: fs) ++ "\n" ++ indent level ++ "\x7d"
  | null => "null"
  | bool b => if b then "true" else "false"
  | int n => toString n
  | real x => realText x
  | str s => quote s

/-- Items, one a line. -/
def prettyItems (level : Nat) : List Json → String
  | [] => ""
  | [v] => indent level ++ prettyAt level v
  | v :: vs => indent level ++ prettyAt level v ++ ",\n" ++ prettyItems level vs

/-- Fields, one a line. -/
def prettyFields (level : Nat) : List (String × Json) → String
  | [] => ""
  | [(k, v)] => indent level ++ quote k ++ ": " ++ prettyAt level v
  | (k, v) :: fs => indent level ++ quote k ++ ": " ++ prettyAt level v ++ ",\n" ++ prettyFields level fs

end

/-- A document on lines of their own. -/
def pretty (v : Json) : String := prettyAt 0 v

end Json
end AtomicStyles
