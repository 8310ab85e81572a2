import AtomicStyles.Decimal.Read
import AtomicStyles.Json.Basic
import AtomicStyles.OrderedMap

/-!
# Reading JSON

The reader takes the whole text or nothing: blanks are space, tab, line feed and
carriage return, characters below U+0020 may not stand in a string, an escaped
surrogate needs its partner, and at most 127 arrays and objects nest.

Numbers with a fraction or an exponent are read as an unsigned 64-bit significand,
later digits being dropped once it is full, that is multiplied or divided by a power
of ten. The result can differ in the last place from the nearest binary64 number.

A value that nobody asks for is only skipped: it has to be written correctly, but its
numbers may be too large, its surrogates alone and its nesting deep.

## Main definitions

* `Json.Number.read` — a number at the head of a text.
* `Json.skipValue` — what follows a value at the head of a text.
* `Json.parse?` — a whole document.
-/

namespace AtomicStyles
namespace Json

/-- Drops the blanks at the head. -/
def skipBlanks : List Char → List Char
  | [] => []
  | c :: cs => if c == ' ' || c == '\t' || c == '\n' || c == '\r' then skipBlanks cs else c :: cs

namespace Number

def digit? (c : Char) : Option Nat :=
  if '0' ≤ c && c ≤ '9' then some (c.toNat - 48) else none

/-- The greatest significand. -/
def maxSignificand : Nat := Nat.pow 2 64 - 1

/-- Reads digits into the significand while it fits; gives the new significand, the number
of digits read, and what follows. -/
def takeDigits (sig count : Nat) : List Char → Nat × Nat × List Char
  | [] => (sig, count, [])
  | c :: cs =>
    match digit? c with
    | none => (sig, count, c :: cs)
    | some d =>
      if sig * 10 + d ≤ maxSignificand then takeDigits (sig * 10 + d) (count + 1) cs
      else (sig, count, c :: cs)

/-- Counts and drops the digits at the head. -/
def dropDigits (count : Nat) : List Char → Nat × List Char
  | [] => (count, [])
  | c :: cs => if (digit? c).isSome then dropDigits (count + 1) cs else (count, c :: cs)

/-- The value of the digits at the head, and what follows. -/
def natural (acc : Nat) : List Char → Nat × List Char
  | [] => (acc, [])
  | c :: cs =>
    match digit? c with
    | none => (acc, c :: cs)
    | some d => natural (acc * 10 + d) cs

/-- `10 ^ n` as a binary64 number, for `n ≤ 308`. -/
def power10 (n : Nat) : Float := Decimal.nearest 1 n

/-- Scales a significand by a power of ten; `none` when the result is too large. `fuel` bounds
the number of divisions by `10 ^ 308`. -/
def scale (x : Float) (e : Int) : Nat → Option Float
  | 0 => some x
  | fuel + 1 =>
    if e.natAbs ≤ 308 then
      if 0 ≤ e then
        let y := x * power10 e.natAbs
        if y.isInf then none else some y
      else some (x / power10 e.natAbs)
    else if x == 0.0 then some x
    else if 0 ≤ e then none
    else scale (x / power10 308) (e + 308) fuel

/-- The number `± sig * 10 ^ e`. -/
def ofParts (negative : Bool) (sig : Nat) (e : Int) : Option Float :=
  (scale (Decimal.nearest sig 0) e 8).map fun x => if negative then -x else x

/-- The exponent after the letter `e`, given the exponent so far. -/
def exponent (negative : Bool) (sig : Nat) (e : Int) (cs : List Char) :
    Option (Float × List Char) :=
  let (minus, cs) := match cs with
    | '+' :: r => (false, r)
    | '-' :: r => (true, r)
    | r => (false, r)
  match cs with
  | [] => none
  | c :: _ =>
    if (digit? c).isNone then none
    else
      let (n, rest) := natural 0 cs
      if Nat.pow 2 31 - 1 < n then
        if sig ≠ 0 && !minus then none else some (if negative then -0.0 else 0.0, rest)
      else
        (ofParts negative sig (if minus then e - n else e + n)).map fun x => (x, rest)

/-- What may follow the significand: an exponent or the end of the number. -/
def finish (negative : Bool) (sig : Nat) (e : Int) : List Char → Option (Float × List Char)
  | 'e' :: cs => exponent negative sig e cs
  | 'E' :: cs => exponent negative sig e cs
  | cs => (ofParts negative sig e).map fun x => (x, cs)

/-- The digits after the point. -/
def fraction (negative : Bool) (sig : Nat) (e : Int) (cs : List Char) :
    Option (Float × List Char) :=
  let (sig', count, rest) := takeDigits sig 0 cs
  let (dropped, rest) := dropDigits 0 rest
  if count + dropped = 0 then none else finish negative sig' (e - count) rest

/-- A number at the head of a text: an integer that fits 64 bits, or a binary64 number. -/
def read (cs : List Char) : Option (Json × List Char) :=
  let (negative, cs) := match cs with
    | '-' :: r => (true, r)
    | r => (false, r)
  match cs with
  | [] => none
  | c :: cs =>
    match digit? c with
    | none => none
    | some 0 =>
      match cs with
      | '.' :: r => (fraction negative 0 0 r).map fun p => (.real p.1, p.2)
      | 'e' :: r => (exponent negative 0 0 r).map fun p => (.real p.1, p.2)
      | 'E' :: r => (exponent negative 0 0 r).map fun p => (.real p.1, p.2)
      | c :: _ =>
        if (digit? c).isSome then none
        else some (if negative then .real (-0.0) else .int 0, cs)
      | [] => some (if negative then .real (-0.0) else .int 0, cs)
    | some d =>
      let (sig, _, rest) := takeDigits d 0 cs
      let (extra, rest) := dropDigits 0 rest
      match rest with
      | '.' :: r => (fraction negative sig extra r).map fun p => (.real p.1, p.2)
      | 'e' :: r => (exponent negative sig extra r).map fun p => (.real p.1, p.2)
      | 'E' :: r => (exponent negative sig extra r).map fun p => (.real p.1, p.2)
      | _ =>
        if extra ≠ 0 then (ofParts negative sig extra).map fun x => (.real x, rest)
        else if !negative then some (.int sig, rest)
        else if sig ≤ Nat.pow 2 63 then some (.int (-sig), rest)
        else some (.real (-Decimal.nearest sig 0), rest)

end Number

/-- The value of a hexadecimal digit. -/
def hexDigit? (c : Char) : Option Nat :=
  if '0' ≤ c && c ≤ '9' then some (c.toNat - 48)
  else if 'a' ≤ c && c ≤ 'f' then some (c.toNat - 87)
  else if 'A' ≤ c && c ≤ 'F' then some (c.toNat - 55)
  else none

/-- Four hexadecimal digits. -/
def hex4 : List Char → Option (Nat × List Char)
  | a :: b :: c :: d :: rest => do
    let a ← hexDigit? a
    let b ← hexDigit? b
    let c ← hexDigit? c
    let d ← hexDigit? d
    some (((a * 16 + b) * 16 + c) * 16 + d, rest)
  | _ => none

/-- The rest of a string after its opening quote; `acc` holds the characters so far, last
first. `fuel` is at least the length of the text. -/
def stringBody (acc : List Char) (cs : List Char) : Nat → Option (String × List Char)
  | 0 => none
  | fuel + 1 =>
    match cs with
    | [] => none
    | '"' :: rest => some (String.ofList acc.reverse, rest)
    | '\\' :: 'u' :: rest =>
      match hex4 rest with
      | none => none
      | some (n, rest) =>
        if 0xDC00 ≤ n && n ≤ 0xDFFF then none
        else if 0xD800 ≤ n && n ≤ 0xDBFF then
          match rest with
          | '\\' :: 'u' :: rest =>
            match hex4 rest with
            | none => none
            | some (m, rest) =>
              if 0xDC00 ≤ m && m ≤ 0xDFFF then
                stringBody (Char.ofNat (0x10000 + (n - 0xD800) * 0x400 + (m - 0xDC00)) :: acc) rest fuel
              else none
          | _ => none
        else stringBody (Char.ofNat n :: acc) rest fuel
    | '\\' :: c :: rest =>
      match c with
      | '"' => stringBody ('"' :: acc) rest fuel
      | '\\' => stringBody ('\\' :: acc) rest fuel
      | '/' => stringBody ('/' :: acc) rest fuel
      | 'b' => stringBody ('\x08' :: acc) rest fuel
      | 'f' => stringBody ('\x0c' :: acc) rest fuel
      | 'n' => stringBody ('\n' :: acc) rest fuel
      | 'r' => stringBody ('\r' :: acc) rest fuel
      | 't' => stringBody ('\t' :: acc) rest fuel
      | _ => none
    | c :: rest => if c.toNat < 32 then none else stringBody (c :: acc) rest fuel

/-- Drops a word at the head. -/
def word? : List Char → List Char → Option (List Char)
  | [], cs => some cs
  | _ :: _, [] => none
  | w :: ws, c :: cs => if w == c then word? ws cs else none

/-! ### Skipping -/

/-- What follows the digits at the head, of which there has to be one. -/
def skipDigits (cs : List Char) : Option (List Char) :=
  match Number.dropDigits 0 cs with
  | (0, _) => none
  | (_, rest) => some rest

/-- What follows the exponent at the head, if there is one. -/
def skipExponent : List Char → Option (List Char)
  | 'e' :: cs => signed cs
  | 'E' :: cs => signed cs
  | cs => some cs
where
  /-- Digits after an optional sign. -/
  signed : List Char → Option (List Char)
    | '+' :: cs => skipDigits cs
    | '-' :: cs => skipDigits cs
    | cs => skipDigits cs

/-- What follows the number at the head. -/
def skipNumber (cs : List Char) : Option (List Char) := do
  let cs := match cs with
    | '-' :: cs => cs
    | cs => cs
  let rest ← match cs with
    | '0' :: cs =>
      match cs with
      | c :: _ => if (Number.digit? c).isSome then none else some cs
      | [] => some cs
    | cs => skipDigits cs
  match rest with
  | '.' :: cs => skipExponent (← skipDigits cs)
  | cs => skipExponent cs

/-- What follows the string at the head, after its opening quote. -/
def skipString (cs : List Char) : Nat → Option (List Char)
  | 0 => none
  | fuel + 1 =>
    match cs with
    | [] => none
    | '"' :: rest => some rest
    | '\\' :: 'u' :: rest => do
      let (_, rest) ← hex4 rest
      skipString rest fuel
    | '\\' :: c :: rest =>
      if ['"', '\\', '/', 'b', 'f', 'n', 'r', 't'].contains c then skipString rest fuel else none
    | c :: rest => if c.toNat < 32 then none else skipString rest fuel

mutual

/-- What follows the value at the head of a text. `fuel` bounds the number of steps. -/
def skipValue (cs : List Char) : Nat → Option (List Char)
  | 0 => none
  | fuel + 1 =>
    match skipBlanks cs with
    | [] => none
    | 'n' :: cs => word? "ull".toList cs
    | 't' :: cs => word? "rue".toList cs
    | 'f' :: cs => word? "alse".toList cs
    | '"' :: cs => skipString cs (cs.length + 1)
    | '[' :: cs =>
      match skipBlanks cs with
      | ']' :: rest => some rest
      | cs => skipElements cs fuel
    | '\x7b' :: cs =>
      match skipBlanks cs with
      | '\x7d' :: rest => some rest
      | cs => skipMembers cs fuel
    | cs => skipNumber cs

/-- What follows the items of an array and its closing bracket. -/
def skipElements (cs : List Char) : Nat → Option (List Char)
  | 0 => none
  | fuel + 1 => do
    match skipBlanks (← skipValue cs fuel) with
    | ',' :: rest => skipElements rest fuel
    | ']' :: rest => some rest
    | _ => none

/-- What follows the fields of an object and its closing brace. -/
def skipMembers (cs : List Char) : Nat → Option (List Char)
  | 0 => none
  | fuel + 1 =>
    match skipBlanks cs with
    | '"' :: cs => do
      match skipBlanks (← skipString cs (cs.length + 1)) with
      | ':' :: cs =>
        match skipBlanks (← skipValue cs fuel) with
        | ',' :: rest => skipMembers rest fuel
        | '\x7d' :: rest => some rest
        | _ => none
      | _ => none
    | _ => none

end

/-! ### Documents -/

/-- What a value that can only be skipped reads as: a number that no text spells. -/
def unreadable : Json := .real (0.0 / 0.0)

mutual

/-- A document at the head of a text. A field of an object in which `spare` levels are left may
be unreadable. `depth` is one more than the number of arrays and objects
that may still open; `fuel` bounds the number of steps. -/
def value (spare depth : Nat) (cs : List Char) : Nat → Option (Json × List Char)
  | 0 => none
  | fuel + 1 =>
    match skipBlanks cs with
    | [] => none
    | 'n' :: cs => (word? "ull".toList cs).map fun r => (.null, r)
    | 't' :: cs => (word? "rue".toList cs).map fun r => (.bool true, r)
    | 'f' :: cs => (word? "alse".toList cs).map fun r => (.bool false, r)
    | '"' :: cs => (stringBody [] cs (cs.length + 1)).map fun p => (.str p.1, p.2)
    | '[' :: cs =>
      if depth ≤ 1 then none
      else match skipBlanks cs with
        | ']' :: rest => some (.arr [], rest)
        | cs => elements spare (depth - 1) [] cs fuel
    | '\x7b' :: cs =>
      if depth ≤ 1 then none
      else match skipBlanks cs with
        | '\x7d' :: rest => some (.obj [], rest)
        | cs => members spare (depth - 1) [] cs fuel
    | cs => Number.read cs

/-- The items of an array up to its closing bracket. -/
def elements (spare depth : Nat) (acc : List Json) (cs : List Char) : Nat → Option (Json × List Char)
  | 0 => none
  | fuel + 1 =>
    match value spare depth cs fuel with
    | none => none
    | some (v, cs) =>
      match skipBlanks cs with
      | ',' :: rest => elements spare depth (v :: acc) rest fuel
      | ']' :: rest => some (.arr (v :: acc).reverse, rest)
      | _ => none

/-- The fields of an object up to its closing brace. -/
def members (spare depth : Nat) (acc : List (String × Json)) (cs : List Char) :
    Nat → Option (Json × List Char)
  | 0 => none
  | fuel + 1 =>
    match skipBlanks cs with
    | '"' :: cs =>
      match stringBody [] cs (cs.length + 1) with
      | none => none
      | some (name, cs) =>
        match skipBlanks cs with
        | ':' :: cs =>
          let read := (value spare depth cs fuel).or
            (if depth = spare then (skipValue cs fuel).map fun cs => (unreadable, cs) else none)
          match read with
          | none => none
          | some (v, cs) =>
            match skipBlanks cs with
            | ',' :: rest => members spare depth ((name, v) :: acc) rest fuel
            | '\x7d' :: rest => some (.obj ((name, v) :: acc).reverse, rest)
            | _ => none
        | _ => none
    | _ => none

end

/-- A whole text as a document in which every written field of an object stands. Fields of
objects with `spare` levels left inside them may be unreadable. -/
def parseRaw? (spare : Nat) (s : String) : Option Json :=
  let cs := s.toList
  match value spare 128 cs (2 * cs.length + 8) with
  | some (v, rest) => if (skipBlanks rest).isEmpty then some v else none
  | none => none

mutual

/-- Keeps, for a repeated name, the first place and the last value. -/
def mergeFields : Json → Json
  | .arr xs => .arr (mergeList xs)
  | .obj fields => .obj (OrderedMap.ofList (mergeEntries fields)).entries
  | v => v

/-- `mergeFields` on every item. -/
def mergeList : List Json → List Json
  | [] => []
  | x :: xs => mergeFields x :: mergeList xs

/-- `mergeFields` on every value. -/
def mergeEntries : List (String × Json) → List (String × Json)
  | [] => []
  | (k, v) :: es => (k, mergeFields v) :: mergeEntries es

end

/-- A whole text as a document. -/
def parse? (s : String) : Option Json := (parseRaw? 0 s).map mergeFields

end Json
end AtomicStyles
