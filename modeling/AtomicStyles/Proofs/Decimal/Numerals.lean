import Mathlib
import AtomicStyles.Decimal.Literal
import AtomicStyles.Decimal.Text

/-!
# Numerals denote their digits

A numeral is read as a literal of code: a sign, digits without a needless zero in front, a point
and further digits, an exponent. Its value is an exact rational. The layout of numbers has four
forms, a whole number with zeros after its digits, a point inside the digits, zeros before them,
and an exponent; in each the text denotes the digits and the scale that it was written from.

* `literalValue?`, `numeralValue?` — the value of a literal, and of one with a sign.
* `toDigits_ofDigitChars` — digits without a zero in front are those of their number.
* `literalValue?_write` — the text of a positive decimal denotes its value.
-/

namespace AtomicStyles
namespace Decimal

open List

/-- The digits after a point, and what follows them. -/
def afterPoint : List Char → List Char × List Char
  | '.' :: cs => (cs.takeWhile Char.isDigit, cs.dropWhile Char.isDigit)
  | cs => ([], cs)

/-- The value of a decimal literal: digits without a needless zero in front, a point and further
digits, an exponent. `none` for any other text. -/
def literalValue? (cs : List Char) : Option ℚ :=
  let whole := cs.takeWhile Char.isDigit
  let (fraction, rest) := afterPoint (cs.dropWhile Char.isDigit)
  if whole.isEmpty && fraction.isEmpty || whole.head? == some '0' && whole.length != 1 then none
  else (exponent? rest).map fun e : ℤ =>
    Nat.ofDigitChars 10 (whole ++ fraction) 0 * (10 : ℚ) ^ (e - fraction.length)

/-- The value of a literal after its sign. -/
def numeralValue? : List Char → Option ℚ
  | '-' :: cs => (literalValue? cs).map Neg.neg
  | cs => literalValue? cs

/-- Digits with a point before them, if there are any, and what follows. -/
def pointed (fraction rest : List Char) : List Char :=
  if fraction = [] then rest else '.' :: (fraction ++ rest)

/-! ### Digits -/

variable {ds rest : List Char}

theorem takeWhile_digits (hds : ∀ c ∈ ds, c.isDigit) (hrest : ∀ c ∈ rest.head?, c.isDigit = false) :
    (ds ++ rest).takeWhile Char.isDigit = ds ∧ (ds ++ rest).dropWhile Char.isDigit = rest := by
  rw [takeWhile_append_of_pos hds, dropWhile_append_of_pos hds]
  cases rest with
  | nil => simp
  | cons c rest => simp [hrest c rfl]

theorem isDigit_iff {c : Char} : c.isDigit ↔ 48 ≤ c.toNat ∧ c.toNat ≤ 57 := by
  rw [Char.isDigit, Bool.and_eq_true, decide_eq_true_eq, decide_eq_true_eq]
  rfl

theorem ofDigits_eq (hds : ∀ c ∈ ds, c.isDigit) : ofDigits 10 ds = Nat.ofDigitChars 10 ds 0 := by
  rw [ofDigits, Nat.ofDigitChars_eq_foldl]
  refine foldl_ext _ _ _ fun n c hc => ?_
  have hvalue : digitValue? c = some (c.toNat - 48) := by
    rw [digitValue?, if_pos]
    rw [Bool.and_eq_true, decide_eq_true_eq, decide_eq_true_eq]
    exact isDigit_iff.1 (hds c hc)
  simp [hvalue, mul_comm]

theorem ofDigitChars_append (ds es : List Char) :
    Nat.ofDigitChars 10 (ds ++ es) 0 =
      Nat.ofDigitChars 10 ds 0 * 10 ^ es.length + Nat.ofDigitChars 10 es 0 := by
  rw [Nat.ofDigitChars_append, Nat.ofDigitChars_eq_ofDigitChars_zero, mul_comm]

theorem toDigits_ofDigitChars (hne : ds ≠ []) (hds : ∀ c ∈ ds, c.isDigit)
    (hhead : ds.head? ≠ some '0') : Nat.toDigits 10 (Nat.ofDigitChars 10 ds 0) = ds := by
  induction ds using List.reverseRecOn with
  | nil => exact absurd rfl hne
  | append_singleton ds c ih =>
    obtain ⟨hlow, hhigh⟩ := isDigit_iff.1 (hds c (by simp))
    have hchar : (c.toNat - 48).digitChar = c := by
      rw [← Char.toNat_inj, Nat.toNat_digitChar_of_lt_ten (by omega)]
      omega
    rw [ofDigitChars_append, length_singleton, pow_one]
    have hlast : Nat.ofDigitChars 10 [c] 0 = c.toNat - 48 := by simp [Nat.ofDigitChars]
    rw [hlast]
    by_cases hds' : ds = []
    · subst hds'
      rw [Nat.ofDigitChars_nil, zero_mul, zero_add, Nat.toDigits_of_lt_base (by omega), hchar,
        nil_append]
    · have hbefore := ih hds' (fun d hd => hds d (by simp [hd])) (by
        rwa [head?_append_of_ne_nil _ hds'] at hhead)
      have hpos : Nat.ofDigitChars 10 ds 0 ≠ 0 := by
        intro hzero
        rw [hzero] at hbefore
        rw [head?_append_of_ne_nil _ hds', ← hbefore] at hhead
        exact hhead rfl
      have hdiv : (Nat.ofDigitChars 10 ds 0 * 10 + (c.toNat - 48)) / 10 = Nat.ofDigitChars 10 ds 0 := by
        omega
      have hmod : (Nat.ofDigitChars 10 ds 0 * 10 + (c.toNat - 48)) % 10 = c.toNat - 48 := by omega
      rw [Nat.toDigits_of_base_le (by decide) (by omega), hdiv, hmod, hbefore, hchar]

theorem exponent?_toDigits (e : ℤ) :
    exponent? ('e' :: ((if e < 0 then ['-'] else ['+']) ++ Nat.toDigits 10 e.natAbs)) = some e := by
  have hdigits : ∀ c ∈ Nat.toDigits 10 e.natAbs, c.isDigit :=
    fun c hc => Nat.isDigit_of_mem_toDigits (by decide) (by decide) hc
  have hvalue : ofDigits 10 (Nat.toDigits 10 e.natAbs) = e.natAbs := by
    rw [ofDigits_eq hdigits, Nat.ofDigitChars_ten_toDigits]
  have hsound : ((Nat.toDigits 10 e.natAbs).isEmpty ||
      !(Nat.toDigits 10 e.natAbs).all Char.isDigit) = false := by
    simpa [Nat.toDigits_ne_nil] using hdigits
  by_cases he : e < 0
  · simp [exponent?, takeSign, he, hsound, hvalue, abs_of_neg he]
  · simp [exponent?, takeSign, he, hsound, hvalue, abs_of_nonneg (not_lt.1 he)]

theorem afterPoint_pointed {fraction : List Char} (hfraction : ∀ c ∈ fraction, c.isDigit)
    (hrest : ∀ c ∈ rest.head?, c = 'e') :
    afterPoint (pointed fraction rest) = (fraction, rest) := by
  unfold pointed
  split
  · next h =>
    rw [h, afterPoint.eq_2]
    rintro cs rfl
    exact absurd (hrest '.' rfl) (by decide)
  · obtain ⟨htake, hdrop⟩ := takeWhile_digits hfraction fun c hc => by rw [hrest c hc]; rfl
    rw [afterPoint, htake, hdrop]

theorem literalValue?_pointed {whole fraction : List Char} (hwhole : ∀ c ∈ whole, c.isDigit)
    (hne : whole ≠ []) (hhead : whole.head? = some '0' → whole.length = 1)
    (hfraction : ∀ c ∈ fraction, c.isDigit) (hrest : ∀ c ∈ rest.head?, c = 'e') :
    literalValue? (whole ++ pointed fraction rest) = (exponent? rest).map fun e : ℤ =>
      Nat.ofDigitChars 10 (whole ++ fraction) 0 * (10 : ℚ) ^ (e - fraction.length) := by
  have hstop : ∀ c ∈ (pointed fraction rest).head?, c.isDigit = false := by
    intro c hc
    unfold pointed at hc
    split at hc
    · rw [hrest c hc]
      rfl
    · cases hc
      rfl
  obtain ⟨htake, hdrop⟩ := takeWhile_digits hwhole hstop
  have hzero : ¬ (whole.isEmpty && fraction.isEmpty ||
      whole.head? == some '0' && whole.length != 1) = true := by
    simpa [hne] using hhead
  rw [literalValue?, htake, hdrop, afterPoint_pointed hfraction hrest]
  exact if_neg hzero

/-! ### Layouts -/

theorem head?_toDigits {n : ℕ} (h : 0 < n) : (Nat.toDigits 10 n).head? ≠ some '0' := by
  induction n using Nat.strongRecOn with
  | ind n ih =>
    by_cases hn : n < 10
    · rw [Nat.toDigits_of_lt_base hn]
      simpa [Nat.digitChar_eq_zero] using h.ne'
    · rw [Nat.toDigits_of_base_le (by decide) (by omega),
        head?_append_of_ne_nil _ Nat.toDigits_ne_nil]
      exact ih _ (by omega) (by omega)

section

variable {ds : List Char} (hne : ds ≠ []) (hds : ∀ c ∈ ds, c.isDigit) (hhead : ds.head? ≠ some '0')
include hne hds hhead

theorem literalValue?_positional (point : ℤ) :
    literalValue? (positional ds point false) =
      some (Nat.ofDigitChars 10 ds 0 * (10 : ℚ) ^ (point - ds.length)) := by
  have hzeros : ∀ n, ∀ c ∈ zeros n, c.isDigit := by
    intro n c hc
    rw [eq_of_mem_replicate hc]
    rfl
  unfold positional
  split
  · next hpoint =>
    have htext : '0' :: '.' :: zeros (-point).toNat ++ ds =
        ['0'] ++ pointed (zeros (-point).toNat ++ ds) [] := by
      simp [pointed, hne]
    have hdigits : ∀ c ∈ zeros (-point).toNat ++ ds, c.isDigit :=
      forall_mem_append.2 ⟨hzeros _, hds⟩
    have hvalue : Nat.ofDigitChars 10 (['0'] ++ (zeros (-point).toNat ++ ds)) 0 =
        Nat.ofDigitChars 10 ds 0 := by
      rw [ofDigitChars_append, ofDigitChars_append, zeros, Nat.ofDigitChars_replicate_zero]
      simp [Nat.ofDigitChars]
    have hscale : 0 - ((zeros (-point).toNat ++ ds).length : ℤ) = point - ds.length := by
      rw [length_append, zeros, length_replicate]
      omega
    rw [htext, literalValue?_pointed (by simp) (by simp) (by simp) hdigits (by simp), hvalue,
      exponent?, Option.map_some, hscale]
  · next hpoint =>
    dsimp only
    split
    · -- the number is whole
      next hlength =>
      have htext : ds ++ zeros (point.toNat - ds.length) ++ (if false = true then ['.', '0'] else []) =
          (ds ++ zeros (point.toNat - ds.length)) ++ pointed [] [] := by
        simp [pointed]
      have hfirst : (ds ++ zeros (point.toNat - ds.length)).head? ≠ some '0' := by
        rwa [head?_append_of_ne_nil _ hne]
      have hscale : point - ds.length = ((point.toNat - ds.length : ℕ) : ℤ) := by omega
      rw [htext, literalValue?_pointed (forall_mem_append.2 ⟨hds, hzeros _⟩) (by simp [hne])
        (fun h => absurd h hfirst) (by simp) (by simp), exponent?, Option.map_some, append_nil,
        ofDigitChars_append, zeros, Nat.ofDigitChars_replicate_zero, length_replicate, hscale,
        zpow_natCast]
      simp
    · -- the point stands inside the digits
      next hlength =>
      have htext : ds.take point.toNat ++ '.' :: ds.drop point.toNat =
          ds.take point.toNat ++ pointed (ds.drop point.toNat) [] := by
        rw [pointed, if_neg (by simpa using hlength), append_nil]
      have hfirst : (ds.take point.toNat).head? ≠ some '0' := by
        rwa [head?_take, if_neg (by omega)]
      have hscale : 0 - ((ds.drop point.toNat).length : ℤ) = point - ds.length := by
        rw [length_drop]
        omega
      rw [htext, literalValue?_pointed (fun c hc => hds c (mem_of_mem_take hc))
        (by simpa [hne] using hpoint) (fun h => absurd h hfirst)
        (fun c hc => hds c (mem_of_mem_drop hc)) (by simp), exponent?, Option.map_some,
        take_append_drop, hscale]

theorem literalValue?_scientific (point : ℤ) :
    literalValue? (scientific ds point true) =
      some (Nat.ofDigitChars 10 ds 0 * (10 : ℚ) ^ (point - ds.length)) := by
  obtain ⟨d, rest, rfl⟩ := exists_cons_of_ne_nil hne
  have htext : scientific (d :: rest) point true = [d] ++ pointed rest
      ('e' :: ((if point - 1 < 0 then ['-'] else ['+']) ++ Nat.toDigits 10 (point - 1).natAbs)) := by
    cases rest <;> simp [scientific, pointed]
  rw [forall_mem_cons] at hds
  rw [htext, literalValue?_pointed (by simpa using hds.1) (by simp) (by simp) hds.2 (by simp),
    exponent?_toDigits, Option.map_some, singleton_append]
  have hscale : point - 1 - rest.length = point - (d :: rest).length := by
    rw [length_cons]
    omega
  rw [hscale]

end

/-- **A numeral denotes its digits**: the text of a positive decimal is a literal of its value. -/
theorem literalValue?_write {d : Digits} (h : 0 < d.digits) :
    literalValue? (scriptLayout.write d) = some (d.digits * (10 : ℚ) ^ d.scale) := by
  have hne : d.chars ≠ [] := Nat.toDigits_ne_nil
  have hds : ∀ c ∈ d.chars, c.isDigit :=
    fun c hc => Nat.isDigit_of_mem_toDigits (by decide) (by decide) hc
  have hhead : d.chars.head? ≠ some '0' := head?_toDigits h
  have hdigits : Nat.ofDigitChars 10 d.chars 0 = d.digits := Nat.ofDigitChars_ten_toDigits
  have hscale : d.point - d.chars.length = d.scale := by
    rw [Digits.point]
    omega
  unfold Layout.write
  dsimp only
  split
  · rw [scriptLayout, literalValue?_positional hne hds hhead, hdigits, hscale]
  · rw [scriptLayout, literalValue?_scientific hne hds hhead, hdigits, hscale]

/-- The value that a sign gives to a magnitude. -/
def withSign (negative : Bool) (q : ℚ) : ℚ := if negative then -q else q

theorem numeralValue?_write (negative : Bool) {d : Digits} (h : 0 < d.digits) :
    numeralValue? ((if negative then ['-'] else []) ++ scriptLayout.write d) =
      some (withSign negative (d.digits * (10 : ℚ) ^ d.scale)) := by
  have hvalue := literalValue?_write h
  cases negative with
  | true => exact congrArg (Option.map Neg.neg) hvalue
  | false =>
    refine Eq.trans (numeralValue?.eq_2 _ fun cs hminus => ?_) hvalue
    have hnone : literalValue? ('-' :: cs) = none := by simp [literalValue?, afterPoint]
    rw [← hminus] at hnone
    exact Option.some_ne_none _ (hvalue.symm.trans hnone)

end Decimal
end AtomicStyles
