/-!
# Base 36 tokens

Fingerprints are shown as thirteen digits of base 36, the least width that holds
every 64-bit word: `36 ^ 12 < 2 ^ 64 ≤ 36 ^ 13`.

## Main definitions

* `Base36.digits` — the digits of a number in a given width, most significant first.
* `Base36.fill` — writes a number into a buffer, from its end.
* `Base36.encode` — the token of a word.
* `Base36.decode` — the number a token stands for.

## Main results

* `Base36.fill_eq_some` — a buffer that is wide enough receives the digits.
* `Base36.toList_encode` — the token of a word has its digits.
-/

namespace AtomicStyles
namespace Base36

/-- The number of digits of a token. -/
def width : Nat := 13

/-- The character of a digit below 36: `0` to `9`, then `a` to `z`. -/
def digitChar (d : Nat) : Char :=
  if d < 10 then Char.ofNat (48 + d) else Char.ofNat (87 + d)

/-- The digit a character stands for, `0` for one that stands for none. -/
def digitValue (c : Char) : Nat :=
  if c.toNat < 58 then c.toNat - 48 else c.toNat - 87

/-- The last `w` digits of `n`, most significant first. -/
def digits : Nat → Nat → List Nat
  | 0, _ => []
  | w + 1, n => digits w (n / 36) ++ [n % 36]

/-- Writes the digits of `n` into a buffer, the last of them right before position `i` and each
further one before it. There is no result if the buffer starts before the number ends. -/
def fill : Nat → Nat → List Char → Option (List Char)
  | 0, n, buffer => if n = 0 then some buffer else none
  | i + 1, n, buffer =>
    if n = 0 then some buffer
    else fill i (n / 36) (buffer.set i (digitChar (n % 36)))

/-- The token of a word: its digits in a buffer of zeros. -/
def encode (n : UInt64) : String :=
  String.ofList ((fill width n.toNat (List.replicate width '0')).getD [])

def decode (s : String) : Nat :=
  s.toList.foldl (fun acc c => acc * 36 + digitValue c) 0

@[simp] theorem length_digits (w n : Nat) : (digits w n).length = w := by
  induction w generalizing n with
  | zero => rfl
  | succ w ih => simp [digits, ih]

theorem map_digitChar_digits_zero (w : Nat) :
    (digits w 0).map digitChar = List.replicate w '0' := by
  induction w with
  | zero => rfl
  | succ w ih =>
    rw [digits, List.map_append, Nat.zero_div, ih, List.replicate_succ']
    rfl

/-- A buffer with `i` zeros takes every number of at most `i` digits. -/
theorem fill_eq_some {i n : Nat} (h : n < Nat.pow 36 i) (written : List Char) :
    fill i n (List.replicate i '0' ++ written) = some ((digits i n).map digitChar ++ written) := by
  induction i generalizing n written with
  | zero =>
    have hn : n = 0 := Nat.lt_one_iff.1 h
    rw [fill, if_pos hn]
    rfl
  | succ i ih =>
    rw [fill]
    split
    next hn => rw [hn, map_digitChar_digits_zero]
    next =>
      have hset : (List.replicate (i + 1) '0' ++ written).set i (digitChar (n % 36)) =
          List.replicate i '0' ++ digitChar (n % 36) :: written := by
        simp [List.replicate_succ']
      have hlt : n / 36 < Nat.pow 36 i := Nat.div_lt_of_lt_mul (Nat.mul_comm _ 36 ▸ h)
      rw [hset, ih hlt, digits, List.map_append, List.append_assoc]
      rfl

theorem toNat_lt_pow_width (n : UInt64) : n.toNat < Nat.pow 36 width :=
  Nat.lt_of_lt_of_le n.toNat_lt (by decide)

theorem fill_width (n : UInt64) : fill width n.toNat (List.replicate width '0') =
    some ((digits width n.toNat).map digitChar) := by
  simpa using fill_eq_some (toNat_lt_pow_width n) []

@[simp] theorem toList_encode (n : UInt64) :
    (encode n).toList = (digits width n.toNat).map digitChar := by
  rw [encode, fill_width, Option.getD_some, String.toList_ofList]

end Base36
end AtomicStyles
