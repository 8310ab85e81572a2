import AtomicStyles.Decimal.Read
import AtomicStyles.Text.Identifier

/-!
# Tokens of scripts

A token is scanned from a cursor, a rest of the source with its byte offset. What a
slash, a backquote or a text between markup tags begins depends on where it stands,
so that the parser asks for regular expressions, template texts and markup texts
itself, from the cursor at the start of the token in question.

Modules are strict: octal literals and escapes, and comments in the style of markup,
are refused.

## Main definitions

* `Cursor` — a rest of the source and its byte offset.
* `Token`, `Token.scan` — one token.
* `scanTemplate`, `skipPattern` — texts that only the parser can ask for.
-/

namespace AtomicStyles
namespace Script

/-- A rest of the source and the byte offset at which it starts. -/
structure Cursor where
  chars : List Char
  pos : Nat
deriving Inhabited

namespace Cursor

/-- The first character and what follows it. -/
def next? (c : Cursor) : Option (Char × Cursor) :=
  match c.chars with
  | [] => none
  | x :: xs => some (x, ⟨xs, c.pos + x.utf8Size⟩)

def peek? (c : Cursor) : Option Char := c.chars.head?

/-- Skips `n` characters of one byte each. -/
def skip (c : Cursor) (n : Nat) : Cursor := ⟨c.chars.drop n, c.pos + n⟩

/-- Skips a text of one-byte characters at the head. -/
def eat? (c : Cursor) (text : String) : Option Cursor :=
  let rec go : List Char → List Char → Option (List Char)
    | [], cs => some cs
    | _ :: _, [] => none
    | t :: ts, x :: xs => if t == x then go ts xs else none
  (go text.toList c.chars).map fun rest => ⟨rest, c.pos + text.length⟩

end Cursor

/-- A token. Keywords are words; a word that starts with an escape is a mere name, whatever it
spells. -/
inductive Token where
  | word (name : String) (isEscaped : Bool)
  | punct (text : String)
  | num (x : Float)
  | bigInt
  | str (s : String)
  | eof
deriving Inhabited

def isLineEnd (c : Char) : Bool :=
  c == '\n' || c == '\r' || c == '\u2028' || c == '\u2029'

/-- Whether a character separates tokens without ending a line. -/
def isSpace (c : Char) : Bool :=
  let n := c.toNat
  n == 0x20 || n == 9 || n == 11 || n == 12 || n == 0x85 || n == 0xA0 || n == 0xFEFF || n == 0x1680
    || (0x2000 ≤ n && n ≤ 0x200A) || n == 0x202F || n == 0x205F || n == 0x3000

/-- Where the skipping of blanks and comments stands. -/
inductive Trivia where
  | code
  | line
  | block
deriving DecidableEq

/-- Skips blanks and comments; tells whether a line ended. Fails inside a comment that does not
end and at a comment in the style of markup. -/
def skipTrivia (mode : Trivia) (newline : Bool) (pos : Nat) :
    List Char → Option (Cursor × Bool)
  | [] => if mode = .block then none else some (⟨[], pos⟩, newline)
  | '/' :: '/' :: cs =>
    match mode with
    | .code => skipTrivia .line newline (pos + 2) cs
    | mode => skipTrivia mode newline (pos + 2) cs
  | '/' :: '*' :: cs =>
    match mode with
    | .code => skipTrivia .block newline (pos + 2) cs
    | .line => skipTrivia .line newline (pos + 2) cs
    | .block =>
      match cs with
      | '/' :: cs => skipTrivia .code newline (pos + 3) cs
      | cs => skipTrivia .block newline (pos + 2) cs
  | '*' :: '/' :: cs =>
    match mode with
    | .block => skipTrivia .code newline (pos + 2) cs
    | .line => skipTrivia .line newline (pos + 2) cs
    | .code => some (⟨'*' :: '/' :: cs, pos⟩, newline)
  | c :: cs =>
    match mode with
    | .block => skipTrivia .block (newline || isLineEnd c) (pos + c.utf8Size) cs
    | .line =>
      if isLineEnd c then skipTrivia .code true (pos + c.utf8Size) cs
      else skipTrivia .line newline (pos + c.utf8Size) cs
    | .code =>
      if isSpace c then skipTrivia .code newline (pos + c.utf8Size) cs
      else if isLineEnd c then skipTrivia .code true (pos + c.utf8Size) cs
      else match c, cs with
        | '<', '!' :: '-' :: '-' :: _ => none
        | '-', '-' :: '>' :: _ => if newline then none else some (⟨c :: cs, pos⟩, newline)
        | _, _ => some (⟨c :: cs, pos⟩, newline)

/-! ### Escapes and strings -/

/-- Digits of a base, each of which a separator may precede; `acc` holds the digits so far, last
first. -/
def scanDigits (base : Nat) (acc : List Char) (pos : Nat) : List Char → Option (List Char × Cursor)
  | [] => some (acc.reverse, ⟨[], pos⟩)
  | x :: xs =>
    if Decimal.isDigitOf base x then scanDigits base (x :: acc) (pos + 1) xs
    else if x == '_' then
      if xs.head?.any (Decimal.isDigitOf base) then scanDigits base acc (pos + 1) xs else none
    else some (acc.reverse, ⟨x :: xs, pos⟩)

/-- Exactly `n` hexadecimal digits, each of which a separator may precede. -/
def scanHex (acc pos : Nat) : Nat → List Char → Option (Nat × Cursor)
  | 0, xs => some (acc, ⟨xs, pos⟩)
  | _ + 1, [] => none
  | n + 1, x :: xs =>
    if Decimal.isDigitOf 16 x then
      scanHex (acc * 16 + (Decimal.digitValue? x).getD 0) (pos + 1) n xs
    else if x == '_' && xs.head?.any (Decimal.isDigitOf 16) then scanHex acc (pos + 1) (n + 1) xs
    else none

/-- Hexadecimal digits up to a closing brace, at least one, of a number below `0x110000`. -/
def scanBraced (c : Cursor) : Option (Nat × List Char × Cursor) := do
  let (digits, rest) ← scanDigits 16 [] c.pos c.chars
  let n := Decimal.ofDigits 16 digits
  if digits.isEmpty || 0x10FFFF < n then none
  else match rest.chars with
    | '\x7d' :: _ => some (n, digits, rest.skip 1)
    | _ => none

def isSurrogate (n : Nat) : Bool := 0xD800 ≤ n && n ≤ 0xDFFF

/-- A Unicode escape after its `u`. The escape of a surrogate, which is no character, stands for
its own spelling. -/
def scanUnicode (c : Cursor) : Option (List Char × Cursor) :=
  match c.chars with
  | '\x7b' :: _ =>
    match scanBraced (c.skip 1) with
    | none => none
    | some (n, digits, rest) =>
      if isSurrogate n then some ('\\' :: 'u' :: '\x7b' :: digits ++ ['\x7d'], rest)
      else some ([Char.ofNat n], rest)
  | cs =>
    match scanHex 0 c.pos 4 cs with
    | none => none
    | some (n, rest) =>
      if isSurrogate n then some ('\\' :: 'u' :: cs.take 4, rest) else some ([Char.ofNat n], rest)

/-- What an escape after its backslash stands for. -/
def scanEscape (c : Cursor) : Option (List Char × Cursor) :=
  match c.next? with
  | none => none
  | some (x, rest) =>
    match x with
    | 'n' => some (['\n'], rest)
    | 'r' => some (['\r'], rest)
    | 't' => some (['\t'], rest)
    | 'b' => some (['\x08'], rest)
    | 'v' => some (['\x0b'], rest)
    | 'f' => some (['\x0c'], rest)
    | '\r' =>
      match rest.chars with
      | '\n' :: _ => some ([], rest.skip 1)
      | _ => some ([], rest)
    | '\n' => some ([], rest)
    | '\u2028' => some ([], rest)
    | '\u2029' => some ([], rest)
    | 'x' => (scanHex 0 rest.pos 2 rest.chars).map fun (n, rest) => ([Char.ofNat n], rest)
    | 'u' => scanUnicode rest
    | '0' =>
      if rest.peek?.any (Decimal.isDigitOf 8) then none else some (['\x00'], rest)
    | x => if '1' ≤ x && x ≤ '7' then none else some ([x], rest)

/-- The rest of a string literal after its opening quote; `acc` holds the characters so far,
last first. -/
def scanString (quote : Char) (acc : List Char) (c : Cursor) : Nat → Option (String × Cursor)
  | 0 => none
  | fuel + 1 =>
    match c.next? with
    | none => none
    | some (x, rest) =>
      if x == quote then some (String.ofList acc.reverse, rest)
      else if x == '\\' then
        match scanEscape rest with
        | none => none
        | some (xs, rest) => scanString quote (xs.reverse ++ acc) rest fuel
      else if x == '\n' || x == '\r' then none
      else scanString quote (x :: acc) rest fuel

/-- How a piece of a template ends. -/
inductive TemplateEnd where
  | substitution
  | quote
deriving DecidableEq

/-- The text of a template from a cursor up to a substitution or the closing backquote. Line
ends are line feeds. -/
def scanTemplate (acc : List Char) (c : Cursor) : Nat → Option (String × TemplateEnd × Cursor)
  | 0 => none
  | fuel + 1 =>
    match c.chars with
    | [] => none
    | '`' :: _ => some (String.ofList acc.reverse, .quote, c.skip 1)
    | '$' :: '\x7b' :: _ => some (String.ofList acc.reverse, .substitution, c.skip 2)
    | '\\' :: _ =>
      match scanEscape (c.skip 1) with
      | none => none
      | some (xs, rest) => scanTemplate (xs.reverse ++ acc) rest fuel
    | '\r' :: '\n' :: _ => scanTemplate ('\n' :: acc) (c.skip 2) fuel
    | '\r' :: _ => scanTemplate ('\n' :: acc) (c.skip 1) fuel
    | x :: xs => scanTemplate (x :: acc) ⟨xs, c.pos + x.utf8Size⟩ fuel

/-- Skips the text of a tagged template, whose escapes need not be valid. -/
def skipTemplate (c : Cursor) : Nat → Option (TemplateEnd × Cursor)
  | 0 => none
  | fuel + 1 =>
    match c.chars with
    | [] => none
    | '`' :: _ => some (.quote, c.skip 1)
    | '$' :: '\x7b' :: _ => some (.substitution, c.skip 2)
    | '\\' :: x :: xs => skipTemplate ⟨xs, c.pos + 1 + x.utf8Size⟩ fuel
    | x :: xs => skipTemplate ⟨xs, c.pos + x.utf8Size⟩ fuel

/-- The pattern of a regular expression after its slash, up to the closing slash. -/
def skipPattern (inClass : Bool) (pos : Nat) : List Char → Option Cursor
  | [] => none
  | '\\' :: x :: xs => if isLineEnd x then none else skipPattern inClass (pos + 1 + x.utf8Size) xs
  | x :: xs =>
    if isLineEnd x then none
    else if x == '/' && !inClass then some ⟨xs, pos + 1⟩
    else skipPattern (if x == '[' then true else if x == ']' then false else inClass)
      (pos + x.utf8Size) xs

/-! ### Words and numbers -/

/-- The rest of an identifier; `acc` holds its characters so far, last first. -/
def scanWord (acc : List Char) (escaped : Bool) (c : Cursor) :
    Nat → Option (List Char × Bool × Cursor)
  | 0 => none
  | fuel + 1 =>
    match c.chars with
    | '\\' :: 'u' :: _ =>
      match scanUnicode (c.skip 2) with
      | some ([x], rest) =>
        let fits := if acc.isEmpty then Text.isIdentStart x else Text.isIdentPart x
        if fits then scanWord (x :: acc) true rest fuel else none
      | _ => none
    | '\\' :: _ => none
    | x :: xs =>
      if Text.isIdentPart x then scanWord (x :: acc) escaped ⟨xs, c.pos + x.utf8Size⟩ fuel
      else some (acc.reverse, escaped, c)
    | [] => some (acc.reverse, escaped, c)

/-- A number must not run into an identifier or another digit. -/
def endsNumber (c : Cursor) : Bool :=
  !(c.peek?.any fun x => Text.isIdentPart x || x == '\\')

/-- The token of an integer in some base, with the suffix that makes it a big integer. -/
def finishInteger (value : Nat) (c : Cursor) : Option (Token × Cursor) :=
  match c.chars with
  | 'n' :: _ => some (.bigInt, c.skip 1)
  | _ => if endsNumber c then some (.num (Decimal.nearest value 0), c) else none

/-- The exponent of a decimal literal, zero where there is none. -/
def scanExponent (c : Cursor) : Option (Int × Cursor) :=
  match c.chars with
  | x :: xs =>
    if x == 'e' || x == 'E' then
      let (minus, start) := match xs with
        | '+' :: _ => (false, c.skip 2)
        | '-' :: _ => (true, c.skip 2)
        | _ => (false, c.skip 1)
      match scanDigits 10 [] start.pos start.chars with
      | some (d :: ds, rest) =>
        let n : Int := Decimal.ofDigits 10 (d :: ds)
        some (if minus then -n else n, rest)
      | _ => none
    else some (0, c)
  | [] => some (0, c)

/-- A decimal literal after its integer digits: fraction and exponent. -/
def finishDecimal (digits : List Char) (c : Cursor) : Option (Token × Cursor) := do
  let (fraction, c) ← match c.chars with
    | '.' :: xs => scanDigits 10 [] (c.pos + 1) xs
    | _ => some ([], c)
  let (e, c) ← scanExponent c
  if endsNumber c then
    some (.num (Decimal.nearest (Decimal.ofDigits 10 (digits ++ fraction)) (e - fraction.length)), c)
  else none

/-- A decimal literal or a big integer without fraction. Other numbers must not start with
zeros. -/
def scanDecimal (c : Cursor) : Option (Token × Cursor) := do
  let (digits, rest) ← scanDigits 10 [] c.pos c.chars
  match rest.chars, digits with
  | 'n' :: _, _ => some (.bigInt, rest.skip 1)
  | _, '0' :: _ :: _ => none
  | _, digits => finishDecimal digits rest

/-- A numeric literal at the head. -/
def scanNumber (c : Cursor) : Option (Token × Cursor) :=
  let radix (base : Nat) : Option (Token × Cursor) :=
    match scanDigits base [] (c.pos + 2) (c.chars.drop 2) with
    | some (d :: ds, rest) => finishInteger (Decimal.ofDigits base (d :: ds)) rest
    | _ => none
  match c.chars with
  | '0' :: x :: _ =>
    if x == 'x' || x == 'X' then radix 16
    else if x == 'o' || x == 'O' then radix 8
    else if x == 'b' || x == 'B' then radix 2
    else scanDecimal c
  | '.' :: _ => finishDecimal [] c
  | _ => scanDecimal c

/-- Words that are never identifiers in a module. -/
def reservedWords : List String :=
  ["await", "break", "case", "catch", "class", "const", "continue", "debugger", "default", "delete",
    "do", "else", "enum", "export", "extends", "false", "finally", "for", "function", "if",
    "implements", "import", "in", "instanceof", "interface", "let", "new", "null", "package",
    "private", "protected", "public", "return", "super", "switch", "this", "throw", "true", "try",
    "typeof", "var", "void", "while", "with", "yield"]

/-- Whether a word, spelt without escapes, is no identifier. -/
def isReserved (w : String) : Bool := reservedWords.contains w

/-! ### Tokens -/

/-- The punctuators, longer ones before their beginnings. -/
def punctuators : List String :=
  [">>>=", "...", "===", "!==", "**=", "<<=", ">>=", ">>>", "&&=", "||=", "??=",
    "=>", "==", "!=", "<=", ">=", "&&", "||", "??", "++", "--", "+=", "-=", "*=", "/=", "%=",
    "&=", "|=", "^=", "<<", ">>", "**", "\x7b", "\x7d", "(", ")", "[", "]", ";", ",", "<", ">", "+",
    "-", "*", "/", "%", "&", "|", "^", "!", "~", "?", ":", "=", ".", "@", "`", "#"]

/-- The first punctuator at the head. -/
def scanPunct (c : Cursor) : List String → Option (Token × Cursor)
  | [] => none
  | p :: ps =>
    match c.eat? p with
    | some rest => some (.punct p, rest)
    | none => scanPunct c ps

/-- The token at a cursor that stands on no blank. A zero character ends the source. -/
def Token.scan (c : Cursor) (fuel : Nat) : Option (Token × Cursor) :=
  match c.chars with
  | [] => some (.eof, c)
  | '\x00' :: _ => some (.eof, c)
  | '"' :: _ => (scanString '"' [] (c.skip 1) fuel).map fun (s, rest) => (.str s, rest)
  | '\'' :: _ => (scanString '\'' [] (c.skip 1) fuel).map fun (s, rest) => (.str s, rest)
  | '.' :: x :: _ => if x.isDigit then scanNumber c else scanPunct c punctuators
  | x :: _ =>
    if x.isDigit then scanNumber c
    else if Text.isIdentStart x || x == '\\' then
      match scanWord [] false c fuel with
      | some (xs, escaped, rest) =>
        let name := String.ofList xs
        if escaped && x != '\\' && isReserved name then none
        else some (.word name (x == '\\'), rest)
      | none => none
    else scanPunct c punctuators

end Script
end AtomicStyles
