import Mathlib
import AtomicStyles.Proofs.Style.RuleText

/-!
# Class names that are identifiers

A selector names a class by an identifier: it starts with a letter or an underscore, with or
without a hyphen before it, or with two hyphens, and goes on with letters, digits, underscores
and hyphens. The token of a fingerprint has thirteen digits of base 36. Since a fingerprint has
64 bits only, the first of them is at most 3, and it can neither start an identifier nor follow
on the hyphen that starts one. So a class name is an identifier exactly if its prefix is one by
itself. The configuration lets prefixes pass that are none: a lone hyphen, and a hyphen before a
digit. All class names under them are unusable.

## Main definitions

* `ClassName.IsIdentifier` — an identifier of a style sheet, in ASCII.

## Main results

* `Base36.digits_succ_eq_cons` — the first digit of a number.
* `ClassName.exists_token_eq_cons` — a token starts with `0`, `1`, `2` or `3`.
* `ClassName.isIdentifier_ofKey` — a class name is an identifier exactly if its prefix is.
* `ClassName.identifier_iff_of_accepted` — **which accepted prefixes make identifiers.**
-/

namespace AtomicStyles

open List

/-! ### Tokens -/

namespace Base36

theorem digits_succ_eq_cons (w n : Nat) : digits (w + 1) n = n / 36 ^ w % 36 :: digits w n := by
  induction w generalizing n with
  | zero => simp [digits]
  | succ w ih =>
    have hfirst : n / 36 / 36 ^ w = n / 36 ^ (w + 1) := by
      rw [Nat.div_div_eq_div_mul, pow_succ']
    calc digits (w + 2) n = digits (w + 1) (n / 36) ++ [n % 36] := rfl
      _ = n / 36 ^ (w + 1) % 36 :: (digits w (n / 36) ++ [n % 36]) := by
        rw [ih, hfirst, cons_append]

/-- Thirteen digits are one more than 64 bits fill, so that the first one is small. -/
theorem first_digit_lt (n : UInt64) : n.toNat / 36 ^ 12 % 36 < 4 := by
  have hn : n.toNat < 2 ^ 64 := n.toNat_lt
  have hdiv : n.toNat / 36 ^ 12 < 4 := by omega
  omega

end Base36

namespace ClassName

/-! ### Identifiers -/

/-- A character that may start an identifier. -/
def isNameStart (c : Char) : Bool := c.isAlpha || c == '_'

/-- A character that may stand in an identifier. -/
def isNamePart (c : Char) : Bool := c.isAlphanum || c == '_' || c == '-'

/-- Whether a text starts like an identifier: with a letter or an underscore, with a hyphen and one
of these, or with two hyphens. -/
def startsName : List Char → Bool
  | [] => false
  | c :: cs => isNameStart c || (c == '-' && cs.head?.any fun d => isNameStart d || d == '-')

structure IsIdentifier (name : String) : Prop where
  start : startsName name.toList = true
  parts : ∀ c ∈ name.toList, isNamePart c = true

instance (name : String) : Decidable (IsIdentifier name) :=
  decidable_of_iff (startsName name.toList = true ∧ name.toList.all isNamePart = true)
    ⟨fun h => ⟨h.1, all_eq_true.1 h.2⟩, fun h => ⟨h.start, all_eq_true.2 h.parts⟩⟩

variable {c : Char}

theorem isNameStart_of_isDigit (h : c.isDigit = true) : isNameStart c = false := by
  have halpha : c.isAlpha = false := by
    grind [Char.isDigit, Char.isAlpha, Char.isUpper, Char.isLower]
  have hunderscore : c ≠ '_' := by
    rintro rfl
    exact absurd h (by decide)
  simp [isNameStart, halpha, hunderscore]

theorem ne_hyphen_of_isDigit (h : c.isDigit = true) : c ≠ '-' := by
  rintro rfl
  exact absurd h (by decide)

/-- Of what may stand in an identifier, all but digits may come after a hyphen that starts it. -/
theorem isNameStart_or_eq_hyphen_iff (h : isNamePart c = true) :
    isNameStart c = true ∨ c = '-' ↔ c.isDigit = false := by
  constructor
  · intro hc
    by_contra hdigit
    rw [Bool.not_eq_false] at hdigit
    rcases hc with hc | hc
    · rw [isNameStart_of_isDigit hdigit] at hc
      cases hc
    · exact ne_hyphen_of_isDigit hdigit hc
  · intro hdigit
    simpa [isNamePart, isNameStart, Char.isAlphanum, hdigit] using h

/-- A digit at the end adds nothing to the start of an identifier, not even after a hyphen. -/
theorem startsName_append {d : Char} (hd : d.isDigit = true) (cs ds : List Char) :
    startsName (cs ++ d :: ds) = startsName cs := by
  have hstart := isNameStart_of_isDigit hd
  have hhyphen := ne_hyphen_of_isDigit hd
  match cs with
  | [] => simp [startsName, hstart, hhyphen]
  | [c] => simp [startsName, hstart, hhyphen]
  | c :: c' :: cs => rfl

/-! ### Class names -/

theorem isNamePart_digitChar {d : Nat} (h : d < 36) : isNamePart (Base36.digitChar d) = true := by
  have hall : ∀ d < 36, isNamePart (Base36.digitChar d) = true := by decide
  exact hall d h

theorem isNamePart_of_mem_token {key : String} (h : c ∈ (token key).toList) :
    isNamePart c = true := by
  rw [token, Base36.toList_encode] at h
  obtain ⟨d, hd, rfl⟩ := mem_map.1 h
  exact isNamePart_digitChar (StyleObject.lt_of_mem_digits hd)

/-- A token starts with one of the first four digits. -/
theorem exists_token_eq_cons (key : String) :
    ∃ d ∈ ['0', '1', '2', '3'], ∃ ds, (token key).toList = d :: ds := by
  have hsmall : ∀ d < 4, Base36.digitChar d ∈ ['0', '1', '2', '3'] := by decide
  have htoken : (token key).toList =
      Base36.digitChar ((Fingerprint.ofText key).toNat / 36 ^ 12 % 36) ::
        (Base36.digits 12 (Fingerprint.ofText key).toNat).map Base36.digitChar := by
    rw [token, Base36.toList_encode, Base36.width, Base36.digits_succ_eq_cons, map_cons]
  exact ⟨_, hsmall _ (Base36.first_digit_lt _), _, htoken⟩

/-- A class name is an identifier exactly if its prefix is one by itself, whatever the key. -/
theorem isIdentifier_ofKey (pre key : String) :
    IsIdentifier (ofKey pre key) ↔ IsIdentifier pre := by
  have hname : (ofKey pre key).toList = pre.toList ++ (token key).toList := String.toList_append
  obtain ⟨d, hd, ds, htoken⟩ := exists_token_eq_cons key
  have hdigit : d.isDigit = true := by
    have hall : ∀ d ∈ ['0', '1', '2', '3'], d.isDigit = true := by simp
    exact hall d hd
  have hstart : startsName (ofKey pre key).toList = startsName pre.toList := by
    rw [hname, htoken, startsName_append hdigit]
  constructor
  · intro h
    refine ⟨hstart ▸ h.start, fun c hc => h.parts c ?_⟩
    rw [hname]
    exact mem_append_left _ hc
  · intro h
    refine ⟨hstart ▸ h.start, fun c hc => ?_⟩
    rw [hname] at hc
    rcases mem_append.1 hc with hc | hc
    · exact h.parts c hc
    · exact isNamePart_of_mem_token hc

/-! ### Accepted prefixes -/

theorem isValidPrefix_of_check {c : Config} (h : c.check = none) :
    Config.isValidPrefix c.classPrefix.toList = true := by
  unfold Config.check at h
  split_ifs at h with _ _ _ _ _ hprefix
  simpa using hprefix

section

variable {pre : List Char} (h : Config.isValidPrefix pre = true)

include h

theorem isNamePart_of_isValidPrefix : ∀ c ∈ pre, isNamePart c = true := by
  cases pre with
  | nil => exact fun c hc => absurd hc not_mem_nil
  | cons c cs =>
    rw [Config.isValidPrefix, Bool.and_eq_true, all_eq_true] at h
    refine forall_mem_cons.2 ⟨?_, h.2⟩
    have hfirst := h.1
    simp only [isNamePart, Char.isAlphanum, Bool.or_eq_true] at hfirst ⊢
    rcases hfirst with (hfirst | hfirst) | hfirst
    · exact .inl (.inl (.inl hfirst))
    · exact .inl (.inr hfirst)
    · exact .inr hfirst

/-- An accepted prefix starts like an identifier unless it is a hyphen, alone or before a digit. -/
theorem startsName_of_isValidPrefix : startsName pre = true ↔
    ¬ (pre = ['-'] ∨ ∃ d rest, d.isDigit = true ∧ pre = '-' :: d :: rest) := by
  have hparts := isNamePart_of_isValidPrefix h
  match pre with
  | [] => cases h
  | [c] =>
    rw [Config.isValidPrefix, Bool.and_eq_true] at h
    by_cases hc : c = '-'
    · simp [startsName, hc]
      decide
    · have hstart : isNameStart c = true := by simpa [isNameStart, hc] using h.1
      simp [startsName, hstart, hc]
  | c :: d :: rest =>
    rw [Config.isValidPrefix, Bool.and_eq_true] at h
    by_cases hc : c = '-'
    · have hfirst : isNameStart '-' = false := by decide
      have hsecond := isNameStart_or_eq_hyphen_iff (hparts d (by simp))
      simp [startsName, hc, hfirst, hsecond]
    · have hstart : isNameStart c = true := by simpa [isNameStart, hc] using h.1
      simp [startsName, hstart, hc]

end

/-- **Which accepted prefixes make identifiers.** Under an accepted prefix, a class name is made of
letters, digits, underscores and hyphens only. It is an identifier, whatever its key, unless the
prefix is a lone hyphen or starts with a hyphen and a digit; then no class name is one. -/
theorem identifier_iff_of_accepted {c : Config} (h : c.check = none) (key : String) :
    (∀ a ∈ (ofKey c.classPrefix key).toList, isNamePart a = true) ∧
    (IsIdentifier (ofKey c.classPrefix key) ↔
      ¬ (c.classPrefix = "-" ∨
        ∃ d rest, d.isDigit = true ∧ c.classPrefix.toList = '-' :: d :: rest)) := by
  have hvalid := isValidPrefix_of_check h
  have hparts := isNamePart_of_isValidPrefix hvalid
  have hhyphen : c.classPrefix = "-" ↔ c.classPrefix.toList = ['-'] := String.toList_inj.symm
  constructor
  · intro a ha
    rw [ofKey, String.toList_append] at ha
    exact (mem_append.1 ha).elim (hparts a) isNamePart_of_mem_token
  · rw [isIdentifier_ofKey, hhyphen, ← startsName_of_isValidPrefix hvalid]
    exact ⟨fun hname => hname.start, fun hstart => ⟨hstart, hparts⟩⟩

theorem identifier_under_hyphen_letter :
    ({ classPrefix := "-f" } : Config).check = none ∧ IsIdentifier (ofKey "-f" "color") := by
  have hcheck : ({ classPrefix := "-f" } : Config).check = none := by decide
  refine ⟨hcheck, (identifier_iff_of_accepted hcheck "color").2.2 ?_⟩
  rintro (heq | ⟨d, rest, hd, heq⟩)
  · exact absurd heq (by decide)
  · obtain ⟨rfl, -⟩ : 'f' = d ∧ rest = [] := by simpa using heq
    exact absurd hd (by decide)

/-- A lone hyphen is accepted, and a class name under it starts with a hyphen and a digit. -/
theorem no_identifier_under_hyphen :
    ({ classPrefix := "-" } : Config).check = none ∧ ¬ IsIdentifier (ofKey "-" "color") :=
  ⟨by decide, fun h => absurd ((isIdentifier_ofKey "-" "color").1 h) (by decide)⟩

end ClassName
end AtomicStyles
