import AtomicStyles.Proofs.Decimal.Numerals
import AtomicStyles.Proofs.Decimal.Rounding
import AtomicStyles.Proofs.Style.Components
import AtomicStyles.Proofs.Style.RuleKey

/-!
# Different numbers have different texts

The text of a finite number denotes a decimal that rounds to the number, so it determines the
number, up to the sign of zero. It has no blanks in it; as the value of a shorthand it is the value
of each longhand, and the key of a rule ends in it.

* `text_inj` — the text determines the number.
* `text_eq_of_key` — the key of a rule determines the text.
* `number_texts` — texts are exact, and neither they nor keys are shared.
-/

namespace AtomicStyles
namespace Decimal

open List

variable {x y : Float}

/-- The text of a finite number denotes zero, or a value of its sign that rounds to it. -/
theorem exists_numeralValue? {b : Binary} (hx : Binary.ofFloat? x = some b) :
    ∃ q, numeralValue? (text x).toList = some (withSign b.negative q) ∧
      (b.mantissa = 0 ∧ q = 0 ∨ b.mantissa ≠ 0 ∧ 0 < q ∧ b.Rounds q) := by
  by_cases hzero : b.mantissa = 0
  · refine ⟨0, ?_, .inl ⟨hzero, rfl⟩⟩
    have htext : text x = "0" := by simp [text, hx, hzero]
    have hvalue : literalValue? (['0'] ++ pointed [] []) = _ :=
      literalValue?_pointed (by simp) (by simp) (by simp) (by simp) (by simp)
    rw [htext]
    refine Eq.trans hvalue ?_
    simp [exponent?, withSign, Nat.ofDigitChars]
  · have hbits := Binary.ofFloat?_eq_some hx
    have hlt : b.mantissa < 2 ^ 53 := by
      rw [hbits, Binary.ofBits]
      dsimp only
      split <;> omega
    have hexp : -1074 ≤ b.exponent := by
      rw [hbits, Binary.ofBits]
      dsimp only
      omega
    obtain ⟨hpos, hrounds⟩ := Shortest.rounds_ofBinary .up (Nat.pos_of_ne_zero hzero) hlt hexp
    have htext : (text x).toList = scriptLayout.render b := by simp [text, hx, hzero]
    refine ⟨_, ?_, .inr ⟨hzero, ?_, hrounds⟩⟩
    · rw [htext]
      exact numeralValue?_write b.negative hpos
    · positivity

theorem withSign_inj {negative negative' : Bool} {q q' : ℚ} (hq : 0 < q) (hq' : 0 < q')
    (h : withSign negative q = withSign negative' q') : negative = negative' ∧ q = q' := by
  cases negative <;> cases negative' <;> simp only [withSign] at h <;> norm_num at h ⊢ <;> linarith

/-- The bits of a number with the mantissa zero. -/
theorem eq_zero_of_mantissa {b : Binary} (hx : Binary.ofFloat? x = some b) (hb : b.mantissa = 0) :
    x = 0.0 ∨ x = -0.0 := by
  rw [Binary.ofFloat?_eq_some hx, Binary.ofBits] at hb
  dsimp only at hb
  have hlt := x.toBits.toNat_lt
  have hbits : x.toBits.toNat = 0 ∨ x.toBits.toNat = 2 ^ 63 := by
    split at hb <;> omega
  refine hbits.imp (fun h => ?_) fun h => ?_ <;>
    rw [← Float.toBits_inj, ← UInt64.toNat_inj, h] <;> decide

theorem eq_of_bits (hsign : 2 ^ 63 ≤ x.toBits.toNat ↔ 2 ^ 63 ≤ y.toBits.toNat)
    (h : x.toBits.toNat % 2 ^ 63 = y.toBits.toNat % 2 ^ 63) : x = y := by
  have hx := x.toBits.toNat_lt
  have hy := y.toBits.toNat_lt
  rw [← Float.toBits_inj, ← UInt64.toNat_inj]
  omega

/-- **Different numbers have different texts**, the two zeros apart. -/
theorem text_inj (hx : (Binary.ofFloat? x).isSome) (hy : (Binary.ofFloat? y).isSome)
    (h : text x = text y) : x = y ∨ (x = 0.0 ∨ x = -0.0) ∧ (y = 0.0 ∨ y = -0.0) := by
  obtain ⟨b, hx⟩ := Option.isSome_iff_exists.1 hx
  obtain ⟨c, hy⟩ := Option.isSome_iff_exists.1 hy
  obtain ⟨q, hq, hcases⟩ := exists_numeralValue? hx
  obtain ⟨r, hr, hcases'⟩ := exists_numeralValue? hy
  rw [h, hr, Option.some.injEq] at hq
  have hne : ∀ {negative : Bool} {q : ℚ}, 0 < q → withSign negative q ≠ 0 := by
    intro negative q hq
    cases negative <;> simp [withSign, hq.ne']
  rcases hcases with ⟨hb, rfl⟩ | ⟨hb, hqpos, hrounds⟩ <;>
    rcases hcases' with ⟨hc, rfl⟩ | ⟨hc, hrpos, hrounds'⟩
  · exact .inr ⟨eq_zero_of_mantissa hx hb, eq_zero_of_mantissa hy hc⟩
  · exact absurd (hq.trans (by simp [withSign])) (hne hrpos)
  · exact absurd (hq.symm.trans (by simp [withSign])) (hne hqpos)
  · obtain ⟨hsign, rfl⟩ := withSign_inj hrpos hqpos hq
    obtain rfl := Binary.ofFloat?_eq_some hx
    obtain rfl := Binary.ofFloat?_eq_some hy
    have hpos : ∀ {negative : Bool} {k : ℕ}, (Binary.ofBits negative k).mantissa ≠ 0 → ∃ j, k = j + 1 := by
      intro negative k hk
      refine Nat.exists_eq_succ_of_ne_zero ?_
      rintro rfl
      exact hk rfl
    obtain ⟨j, hj⟩ := hpos hb
    obtain ⟨k, hk⟩ := hpos hc
    rw [hj] at hrounds
    rw [hk] at hrounds'
    obtain rfl := eq_of_rounds hrounds hrounds'
    exact .inl (eq_of_bits (decide_eq_decide.1 hsign.symm) (hj.trans hk.symm))

/-! ### Keys -/

theorem isNumeral_of_mem_text (hx : (Binary.ofFloat? x).isSome) {c : Char}
    (hc : c ∈ (text x).toList) : isNumeral c := by
  obtain ⟨b, hx⟩ := Option.isSome_iff_exists.1 hx
  unfold text at hc
  rw [hx] at hc
  dsimp only at hc
  split at hc
  · rw [mem_singleton.1 hc]
    decide
  · rw [String.toList_ofList] at hc
    exact isNumeral_of_mem_render hc

theorem isBlank_of_isNumeral {c : Char} (h : isNumeral c) : Text.isBlank c = false := by
  rw [isNumeral, Bool.or_eq_true, decide_eq_true_eq] at h
  rcases h with h | h
  · obtain ⟨hlow, hhigh⟩ := isDigit_iff.1 h
    simp [Text.isBlank]
    omega
  · simp only [mem_cons, not_mem_nil, or_false] at h
    rcases h with rfl | rfl | rfl | rfl <;> decide

/-- Every longhand of a number has its text. -/
theorem keyValue_of_mem (hx : (Binary.ofFloat? x).isSome) {property : String} {a : Atom}
    (ha : a ∈ Atom.ofLiteral property (.value (text x))) : a.keyValue = text x := by
  have hnumeral : ∀ c ∈ (text x).toList, isNumeral c := fun c => isNumeral_of_mem_text hx
  have hplain : ¬ Declaration.Important (text x) := by
    intro h
    exact absurd (hnumeral '!' (h.subset (by simp))) (by decide)
  have hne : (text x).toList ≠ [] := by
    intro h
    obtain ⟨b, hx⟩ := Option.isSome_iff_exists.1 hx
    obtain ⟨q, hq, -⟩ := exists_numeralValue? hx
    rw [h] at hq
    simp [numeralValue?, literalValue?, afterPoint] at hq
  have hparts : Declaration.components (Declaration.plain (text x)) = [text x] := by
    rw [Declaration.plain, if_neg hplain]
    exact Declaration.components_eq_singleton hne fun c hc => isBlank_of_isNumeral (hnumeral c hc)
  obtain ⟨d, hd, rfl⟩ := mem_map.1 ha
  rw [Declaration.expand_eq] at hd
  split at hd
  · obtain ⟨⟨name, place⟩, -, rfl⟩ := mem_map.1 hd
    have hchosen : Declaration.chosen [text x] place ∈ [text x] :=
      Declaration.chosen_mem (by simp) place
    rw [hparts, mem_singleton.1 hchosen, Declaration.mark, if_neg hplain, String.append_empty]
  · rw [mem_singleton.1 hd]

/-- A key ends in the text of its number. -/
theorem text_eq_of_key (hx : (Binary.ofFloat? x).isSome) (hy : (Binary.ofFloat? y).isSome)
    {property property' : String} {a a' : Atom} (ha : a ∈ Atom.ofLiteral property (.value (text x)))
    (ha' : a' ∈ Atom.ofLiteral property' (.value (text y))) {path path' : List Segment}
    (h : a.key path = a'.key path') : text x = text y := by
  have hmark : ∀ {z : Float}, (Binary.ofFloat? z).isSome → '\x1f' ∉ (text z).toList.reverse := by
    intro z hz hmem
    exact absurd (isNumeral_of_mem_text hz (List.mem_reverse.1 hmem)) (by decide)
  have hlast : ∀ (path : List Segment) (a : Atom), ∃ front,
      (a.key path).toList.reverse = a.keyValue.toList.reverse ++ '\x1f' :: front :=
    fun path a => ⟨_, by rw [Atom.key, String.toList_append, List.reverse_append, String.toList_append,
      List.reverse_append]; rfl⟩
  obtain ⟨front, hfront⟩ := hlast path a
  obtain ⟨front', hfront'⟩ := hlast path' a'
  rw [h, hfront', keyValue_of_mem hx ha, keyValue_of_mem hy ha'] at hfront
  have hsame := (append_mark_inj (hmark hy) (hmark hx) hfront).1
  exact (String.toList_inj.1 (List.reverse_inj.1 hsame)).symm

/-! ### Exact texts -/

/-- **The texts of numbers are exact.** Digits without a zero in front, with the point after the
first of them and an exponent, are written as a literal of exactly that value, with the sign
before it. The text of a finite number denotes a value that rounds to the number, and two that are
different and not both zero differ in their texts, and so do the keys of all declarations whose
values they are. -/
theorem number_texts :
    (∀ (negative : Bool) (ds : List Char) (e : ℤ), ds ≠ [] → (∀ c ∈ ds, c.isDigit) →
      ds.head? ≠ some '0' →
        let d : Digits := ⟨Nat.ofDigitChars 10 ds 0, e - (ds.length - 1)⟩
        d.chars = ds ∧ numeralValue? ((if negative then ['-'] else []) ++ scriptLayout.write d) =
          some (withSign negative (Nat.ofDigitChars 10 ds 0 * (10 : ℚ) ^ (e - (ds.length - 1))))) ∧
    (∀ (x : Float) (b : Binary), Binary.ofFloat? x = some b → ∃ q,
      numeralValue? (text x).toList = some (withSign b.negative q) ∧
        (b.mantissa = 0 ∧ q = 0 ∨ b.mantissa ≠ 0 ∧ 0 < q ∧ b.Rounds q)) ∧
    ∀ x y : Float, (Binary.ofFloat? x).isSome → (Binary.ofFloat? y).isSome → x ≠ y →
      ¬ ((x = 0.0 ∨ x = -0.0) ∧ (y = 0.0 ∨ y = -0.0)) →
        text x ≠ text y ∧ ∀ (property property' : String) (path path' : List Segment),
          ∀ a ∈ Atom.ofLiteral property (.value (text x)),
            ∀ a' ∈ Atom.ofLiteral property' (.value (text y)), a.key path ≠ a'.key path' := by
  refine ⟨fun negative ds e hne hds hhead => ?_, fun _ _ => exists_numeralValue?,
    fun x y hx hy hxy hzeros => ?_⟩
  · have hchars := toDigits_ofDigitChars hne hds hhead
    have hpos : 0 < Nat.ofDigitChars 10 ds 0 := by
      refine Nat.pos_of_ne_zero fun hzero => hhead ?_
      rw [← hchars, hzero]
      rfl
    exact ⟨hchars, numeralValue?_write negative hpos⟩
  · have htext : text x ≠ text y := fun h => (text_inj hx hy h).elim hxy hzeros
    exact ⟨htext, fun _ _ _ _ _ ha _ ha' hkey => htext (text_eq_of_key hx hy ha ha' hkey)⟩

theorem number_texts_small :
    numeralValue? "-1.25e-7".toList = some (withSign true (125 * (10 : ℚ) ^ (-9 : ℤ))) ∧
      text 0.5 ≠ text 1e21 ∧ ∀ path path',
        Atom.key path ⟨"opacity", "0.5", [⟨"opacity", "0.5"⟩]⟩ ≠
          Atom.key path' ⟨"opacity", "1e+21", [⟨"opacity", "1e+21"⟩]⟩ := by
  obtain ⟨-, hvalue⟩ := number_texts.1 true ['1', '2', '5'] (-7) (by decide) (by simp) (by decide)
  obtain ⟨htext, hkey⟩ := number_texts.2.2 0.5 1e21 (by decide +kernel) (by decide +kernel)
    (by decide +kernel) (by decide +kernel)
  refine ⟨hvalue, htext, fun path path' => ?_⟩
  exact hkey "opacity" "opacity" path path' _ (by decide +kernel) _ (by decide +kernel)

end Decimal
end AtomicStyles
