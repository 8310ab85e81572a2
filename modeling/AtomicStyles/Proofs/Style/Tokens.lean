import Mathlib
import AtomicStyles.Proofs.Style.RuleText

/-!
# Tokens that keep their word

The token of a word is written from its end into a buffer of thirteen zeros. No 64-bit word has
more digits than that, so the loop never runs past the start of the buffer and the token holds
the whole word: it can be read back, and tokens stand in the order of their words. Class names
under one prefix are then as different as the fingerprints of their keys.

## Main results

* `Base36.decode_encode` — a token is read back as its word.
* `Base36.encode_lt_encode_iff` — tokens are ordered as their words are.
* `ClassName.lossless_token` — **tokens are complete, and class names tell fingerprints apart.**
-/

namespace AtomicStyles
namespace Base36

open List

/-! ### Reading back -/

theorem digitValue_digitChar {d : Nat} (h : d < 36) : digitValue (digitChar d) = d := by
  have hall : ∀ d < 36, digitValue (digitChar d) = d := by decide
  exact hall d h

theorem foldl_digits {w n : Nat} (h : n < 36 ^ w) :
    ((digits w n).map digitChar).foldl (fun acc c => acc * 36 + digitValue c) 0 = n := by
  induction w generalizing n with
  | zero => exact (Nat.lt_one_iff.1 h).symm
  | succ w ih =>
    have hlt : n / 36 < 36 ^ w := Nat.div_lt_of_lt_mul (by rwa [Nat.pow_succ'] at h)
    have hdigit : n % 36 < 36 := Nat.mod_lt n (by decide)
    rw [digits, map_append, foldl_append, ih hlt]
    simp only [map_cons, map_nil, foldl_cons, foldl_nil,
      digitValue_digitChar hdigit]
    omega

theorem decode_encode (n : UInt64) : decode (encode n) = n.toNat := by
  rw [decode, toList_encode, foldl_digits (toNat_lt_pow_width n)]

theorem encode_injective : Function.Injective encode := by
  intro m n h
  have hvalue := congrArg decode h
  rw [decode_encode, decode_encode] at hvalue
  exact UInt64.toNat.inj hvalue

/-! ### Order -/

theorem digitChar_lt {d e : Nat} (hlt : d < e) (he : e < 36) : digitChar d < digitChar e := by
  have hall : ∀ e < 36, ∀ d < e, digitChar d < digitChar e := by decide
  exact hall e he d hlt

/-- Between texts of one length the order is settled before the shorter one ends. -/
theorem append_lt_append {cs ds : List Char} (hlt : cs < ds) (hlen : cs.length = ds.length)
    (cs' ds' : List Char) : cs ++ cs' < ds ++ ds' := by
  induction hlt with
  | nil => cases hlen
  | rel h => exact .rel h
  | cons _ ih => exact .cons (ih (Nat.succ.inj hlen))

/-- The last digit counts only if all digits before it agree. -/
theorem map_digits_lt {w m n : Nat} (hlt : m < n) (hn : n < 36 ^ w) :
    (digits w m).map digitChar < (digits w n).map digitChar := by
  induction w generalizing m n with
  | zero => omega
  | succ w ih =>
    have hdiv : n / 36 < 36 ^ w := Nat.div_lt_of_lt_mul (by rwa [Nat.pow_succ'] at hn)
    simp only [digits, map_append, map_cons, map_nil]
    rcases Nat.lt_or_ge (m / 36) (n / 36) with h | h
    · exact append_lt_append (ih h hdiv) (by simp) _ _
    · have heq : m / 36 = n / 36 := by omega
      have hdigit : digitChar (m % 36) < digitChar (n % 36) :=
        digitChar_lt (by omega) (Nat.mod_lt n (by decide))
      rw [heq]
      exact List.Lex.append_left _ (.rel hdigit) _

theorem encode_lt_encode {m n : UInt64} (h : m < n) : encode m < encode n := by
  rw [String.lt_iff_toList_lt, toList_encode, toList_encode]
  exact map_digits_lt (UInt64.lt_iff_toNat_lt.1 h) (toNat_lt_pow_width n)

theorem encode_lt_encode_iff {m n : UInt64} : encode m < encode n ↔ m < n := by
  refine ⟨fun h => ?_, encode_lt_encode⟩
  by_contra hle
  rcases UInt64.lt_or_eq_of_le (UInt64.not_lt.1 hle) with hlt | rfl
  · exact lt_asymm h (encode_lt_encode hlt)
  · exact lt_irrefl _ h

end Base36

/-! ### Class names -/

namespace ClassName

theorem ofKey_eq_ofKey_iff {pre key key' : String} :
    ofKey pre key = ofKey pre key' ↔ Fingerprint.ofText key = Fingerprint.ofText key' := by
  rw [ofKey, ofKey, String.append_right_inj, token, token, Base36.encode_injective.eq_iff]

/-- **Tokens keep their word.** The loop that writes one stays inside its buffer and leaves
thirteen digits there. They are worth the word, and they are ordered as the words are. Under one
prefix, two keys have one class name exactly if they have one fingerprint. -/
theorem lossless_token :
    (∀ n : UInt64,
      Base36.fill 13 n.toNat (List.replicate 13 '0') = some (Base36.encode n).toList ∧
      (Base36.encode n).length = 13 ∧
      (∀ c ∈ (Base36.encode n).toList, c.isDigit = true ∨ c.isLower = true) ∧
      Base36.decode (Base36.encode n) = n.toNat) ∧
    (∀ m n : UInt64, Base36.encode m < Base36.encode n ↔ m < n) ∧
    ∀ pre key key' : String,
      ofKey pre key = ofKey pre key' ↔ Fingerprint.ofText key = Fingerprint.ofText key' := by
  refine ⟨fun n => ⟨?_, ?_, ?_, Base36.decode_encode n⟩, fun m n => Base36.encode_lt_encode_iff,
    fun pre key key' => ofKey_eq_ofKey_iff⟩
  · rw [Base36.toList_encode]
    exact Base36.fill_width n
  · rw [← String.length_toList, Base36.toList_encode, List.length_map, Base36.length_digits]
    rfl
  · intro c hc
    have hall : ∀ d < 36, (Base36.digitChar d).isDigit ∨ (Base36.digitChar d).isLower := by decide
    rw [Base36.toList_encode] at hc
    obtain ⟨d, hd, rfl⟩ := List.mem_map.1 hc
    exact hall d (StyleObject.lt_of_mem_digits hd)

end ClassName
end AtomicStyles
