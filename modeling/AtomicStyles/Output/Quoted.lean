import AtomicStyles.Text.Blank

/-!
# String literals of printed code

A printed string is quoted by the quote it holds less of, the double quote on a tie.
The chosen quote, the backslash, line ends and most control characters are escaped;
a tab stays. A backslash that already starts the escape of a surrogate stays single.
-/

namespace AtomicStyles
namespace Quoted

/-- The lowercase hexadecimal digit of a number below 16. -/
def hexDigit (d : Nat) : Char :=
  if d < 10 then Char.ofNat (48 + d) else Char.ofNat (87 + d)

def isHex (c : Char) : Bool :=
  ('0' ≤ c && c ≤ '9') || ('a' ≤ c && c ≤ 'f') || ('A' ≤ c && c ≤ 'F')

/-- Whether four characters spell a number from `D800` to `DFFF`. -/
def isSurrogate (a b c d : Char) : Bool :=
  (a == 'D' || a == 'd') && isHex b && !('0' ≤ b && b ≤ '7') && isHex c && isHex d

/-- Whether what follows a backslash makes it the escape of a surrogate. -/
def startsSurrogate : List Char → Bool
  | 'u' :: '\x7b' :: a :: b :: c :: d :: '\x7d' :: _ => isSurrogate a b c d
  | 'u' :: a :: b :: c :: d :: _ => isSurrogate a b c d
  | _ => false

/-- A character as it is printed between quotes, given what follows it. -/
def escape (quote c : Char) (rest : List Char) : List Char :=
  if c == '\\' then if startsSurrogate rest then ['\\'] else ['\\', '\\']
  else if c == quote then ['\\', c]
  else
    let n := c.toNat
    if n = 0 then
      if rest.head?.any Char.isDigit then ['\\', 'x', '0', '0'] else ['\\', '0']
    else if n = 8 then ['\\', 'b']
    else if n = 12 then ['\\', 'f']
    else if n = 10 then ['\\', 'n']
    else if n = 13 then ['\\', 'r']
    else if n = 11 then ['\\', 'v']
    else if n = 9 then [c]
    else if n < 32 then ['\\', 'x', hexDigit (n / 16), hexDigit (n % 16)]
    else if n = 0x2028 then "\\u2028".toList
    else if n = 0x2029 then "\\u2029".toList
    else if n = 0xFEFF then "\\uFEFF".toList
    else [c]

/-- All characters as they are printed between quotes. -/
def escapeAll (quote : Char) : List Char → List Char
  | [] => []
  | c :: cs => escape quote c cs ++ escapeAll quote cs

/-- The quote a text is printed with. -/
def quoteFor (cs : List Char) : Char :=
  if cs.count '\'' < cs.count '"' then '\'' else '"'

/-- A text as a string literal. -/
def string (s : String) : String :=
  let q := quoteFor s.toList
  String.ofList (q :: escapeAll q s.toList ++ [q])

/-- Whether a property name can stand without quotes. -/
def isBare : List Char → Bool
  | [] => false
  | c :: cs =>
    (c.isAlpha || c == '_' || c == '$') && cs.all fun c => c.isAlphanum || c == '_' || c == '$'

/-- A property name, quoted only when it has to be. -/
def key (s : String) : String := if isBare s.toList then s else string s

end Quoted
end AtomicStyles
