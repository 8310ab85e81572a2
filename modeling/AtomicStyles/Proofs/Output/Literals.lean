import Mathlib
import AtomicStyles.Decimal.Read
import AtomicStyles.Output.Quoted
import AtomicStyles.Text.Units

/-!
# Printed strings are read back

A printed string literal is code: whoever runs it reads it by the rules of the language, in which
strings are sequences of UTF-16 units. A reader of string literals is given here by these rules,
apart from the printer, and it finds in a printed literal the units of the text.

There is one exception. A surrogate is no character, so that a text can hold one only spelled
out, as the six or eight characters of an escape. The printer leaves the backslash of such a
spelling alone, and the surrogate is what is read.

## Main definitions

* `ReadBack.readString` — a string literal.
* `ReadBack.meant` — the units of a text, a surrogate that is spelled out standing for itself.

## Main statements

* `Text.ofUnits_units` — the units of a text determine it.
* `ReadBack.readString_string` — a printed text is read as what is meant by it.
* `ReadBack.meant_eq_units_iff` — that is the text itself unless it spells a surrogate out.
-/

namespace AtomicStyles

open List

namespace Text

/-! ### Texts and their units -/

theorem toNat_valid (c : Char) : c.toNat < 0xD800 ∨ 0xDFFF < c.toNat ∧ c.toNat < 0x110000 :=
  c.valid

/-- The unit of a character up to U+FFFF is half of no pair, and is read as the character. -/
theorem unitChars_unit_cons {c : Char} (h : c.toNat < 0x10000) (us : List UInt16) :
    unitChars (c.toNat.toUInt16 :: us) = c :: unitChars us := by
  have hunit : c.toNat.toUInt16.toNat = c.toNat := by
    simpa using h
  have hvalid := toNat_valid c
  have hhigh : isHigh c.toNat.toUInt16 = false := by
    simp only [isHigh, UInt16.le_iff_toNat_le, hunit, UInt16.reduceToNat,
      Bool.and_eq_false_iff, decide_eq_false_iff_not]
    omega
  have hlow : isLow c.toNat.toUInt16 = false := by
    simp only [isLow, UInt16.le_iff_toNat_le, hunit, UInt16.reduceToNat,
      Bool.and_eq_false_iff, decide_eq_false_iff_not]
    omega
  have hchar : unitChar c.toNat.toUInt16 = c := by
    simp [unitChar, hhigh, hlow, hunit]
  cases us with
  | nil => simp [unitChars, hchar]
  | cons v us => simp [unitChars, hhigh, hchar]

/-- The two units of a character beyond U+FFFF are a pair, and are read as the character. -/
theorem unitChars_pair_cons {c : Char} (h : ¬c.toNat < 0x10000) (us : List UInt16) :
    unitChars (charUnits c ++ us) = c :: unitChars us := by
  have hvalid := toNat_valid c
  simp only [charUnits, if_neg h, cons_append, nil_append, unitChars]
  generalize hm : 0xD800 + (c.toNat - 0x10000) / 0x400 = m
  generalize hl : 0xDC00 + (c.toNat - 0x10000) % 0x400 = l
  have hmn : m.toUInt16.toNat = m := by
    simp
    omega
  have hln : l.toUInt16.toNat = l := by
    simp
    omega
  have hhigh : isHigh m.toUInt16 = true := by
    simp only [isHigh, UInt16.le_iff_toNat_le, hmn, UInt16.reduceToNat,
      Bool.and_eq_true, decide_eq_true_eq]
    omega
  have hlow : isLow l.toUInt16 = true := by
    simp only [isLow, UInt16.le_iff_toNat_le, hln, UInt16.reduceToNat,
      Bool.and_eq_true, decide_eq_true_eq]
    omega
  have hchar : pairChar m.toUInt16 l.toUInt16 = c := by
    have hnat : 0x10000 + (m - 0xD800) * 0x400 + (l - 0xDC00) = c.toNat := by omega
    rw [pairChar, hmn, hln, hnat, Char.ofNat_toNat]
  simp [hhigh, hlow, hchar]

/-- The units of characters are read as these, whatever follows. -/
theorem unitChars_flatMap_append (cs : List Char) (us : List UInt16) :
    unitChars (cs.flatMap charUnits ++ us) = cs ++ unitChars us := by
  induction cs with
  | nil => rfl
  | cons c cs ih =>
    rw [flatMap_cons, append_assoc]
    by_cases h : c.toNat < 0x10000
    · have hone : charUnits c = [c.toNat.toUInt16] := if_pos h
      rw [hone, singleton_append, unitChars_unit_cons h, ih, cons_append]
    · rw [unitChars_pair_cons h, ih, cons_append]

theorem ofUnits_units (s : String) : ofUnits (units s) = s := by
  have hchars := unitChars_flatMap_append s.toList []
  rw [append_nil, unitChars, append_nil] at hchars
  rw [ofUnits, units, hchars, String.ofList_toList]

end Text

namespace ReadBack

open Text

/-! ### A reader of string literals -/

/-- Reads something at the head of a text and gives what follows it. -/
abbrev Reader (α : Type) := List Char → Option (α × List Char)

/-- The number that hexadecimal digits spell, if there are digits and nothing else. -/
def hexNumber? (ds : List Char) : Option Nat :=
  if ds.isEmpty || !ds.all (Decimal.isDigitOf 16) then none else some (Decimal.ofDigits 16 ds)

/-- The units of a code point; a surrogate is a unit of its own. -/
def codeUnits (n : Nat) : List UInt16 :=
  if n < 0x10000 then [n.toUInt16]
  else [(0xD800 + (n - 0x10000) / 0x400).toUInt16, (0xDC00 + (n - 0x10000) % 0x400).toUInt16]

/-- The letters that stand for control characters after a backslash. -/
def controlLetters : List (Char × Nat) :=
  [('b', 8), ('t', 9), ('n', 10), ('v', 11), ('f', 12), ('r', 13)]

def endsLine (c : Char) : Bool := c == '\n' || c == '\r' || c == '\u2028' || c == '\u2029'

/-- What an escape after its backslash stands for. A line end stands for nothing, digits other
than a zero that no digit follows are refused, and most characters stand for themselves. -/
def readEscape : Reader (List UInt16)
  | [] => none
  | 'x' :: a :: b :: cs => (hexNumber? [a, b]).map fun n => (codeUnits n, cs)
  | 'u' :: '\x7b' :: cs =>
    ((hexNumber? (cs.takeWhile (· != '\x7d'))).filter (· ≤ 0x10FFFF)).bind fun n =>
      (cs.dropWhile (· != '\x7d')).tail?.map fun rest => (codeUnits n, rest)
  | 'u' :: a :: b :: c :: d :: cs => (hexNumber? [a, b, c, d]).map fun n => (codeUnits n, cs)
  | '0' :: cs => if cs.head?.any Char.isDigit then none else some (codeUnits 0, cs)
  | '\r' :: '\n' :: cs => some ([], cs)
  | c :: cs =>
    if c == 'x' || c == 'u' || c.isDigit then none
    else if endsLine c then some ([], cs)
    else some (codeUnits ((controlLetters.lookup c).getD c.toNat), cs)

/-- The rest of a string literal after its opening quote. -/
def readText (quote : Char) : Nat → Reader (List UInt16)
  | 0, _ => none
  | _ + 1, [] => none
  | n + 1, c :: cs =>
    if c = quote then some ([], cs)
    else if c = '\\' then
      (readEscape cs).bind fun r => (readText quote n r.2).map fun s => (r.1 ++ s.1, s.2)
    else if c = '\n' ∨ c = '\r' then none
    else (readText quote n cs).map fun s => (codeUnits c.toNat ++ s.1, s.2)

def readString : Reader (List UInt16)
  | [] => none
  | q :: cs => if q = '"' ∨ q = '\'' then readText q cs.length cs else none

/-! ### Surrogates that are spelled out -/

/-- The surrogate that hexadecimal digits spell. -/
def surrogate? (ds : List Char) : Option Nat :=
  (hexNumber? ds).filter fun n => 0xD800 ≤ n && n ≤ 0xDFFF

/-- The surrogate that is spelled out at the head of a text, with the number of characters that
follow the backslash of its spelling. -/
def spelled? : List Char → Option (Nat × Nat)
  | '\\' :: 'u' :: '\x7b' :: a :: b :: c :: d :: '\x7d' :: _ =>
    (surrogate? [a, b, c, d]).map fun n => (n, 7)
  | '\\' :: 'u' :: a :: b :: c :: d :: _ => (surrogate? [a, b, c, d]).map fun n => (n, 5)
  | _ => none

/-- The units of a text after some characters that are skipped; a surrogate that is spelled out
stands for itself. -/
def meantFrom : Nat → List Char → List UInt16
  | _, [] => []
  | skip + 1, _ :: cs => meantFrom skip cs
  | 0, c :: cs =>
    match spelled? (c :: cs) with
    | some s => s.1.toUInt16 :: meantFrom s.2 cs
    | none => charUnits c ++ meantFrom 0 cs

/-- The units of a text in which a surrogate that is spelled out stands for itself. -/
def meant (s : String) : List UInt16 := meantFrom 0 s.toList

/-- Whether a text spells a surrogate out. -/
def spellsSurrogate : List Char → Bool
  | [] => false
  | c :: cs => (spelled? (c :: cs)).isSome || spellsSurrogate cs

/-! ### Hexadecimal digits -/

variable {c d : Char} {ds : List Char}

theorem le_iff_toNat : c ≤ d ↔ c.toNat ≤ d.toNat := Iff.rfl

theorem eq_iff_toNat : c = d ↔ c.toNat = d.toNat := Char.toNat_inj.symm

/-- A hexadecimal digit, with what the printer asks about the first two digits of a surrogate. -/
theorem exists_digitValue (h : Decimal.isDigitOf 16 c) :
    ∃ v < 16, Decimal.digitValue? c = some v ∧ (v = 13 ↔ c = 'D' ∨ c = 'd') ∧
      (v < 8 ↔ '0' ≤ c ∧ c ≤ '7') := by
  obtain ⟨v, hv, hlt⟩ : ∃ v, Decimal.digitValue? c = some v ∧ v < 16 := by
    simpa [Decimal.isDigitOf, Option.any_eq_true] using h
  refine ⟨v, hlt, hv, ?_⟩
  unfold Decimal.digitValue? at hv
  simp only [le_iff_toNat, eq_iff_toNat, Char.reduceToNat, Bool.and_eq_true,
    decide_eq_true_eq] at hv ⊢
  split_ifs at hv <;> simp only [Option.some.injEq] at hv <;> omega

theorem isHex_eq (c : Char) : Quoted.isHex c = Decimal.isDigitOf 16 c := by
  unfold Quoted.isHex Decimal.isDigitOf Decimal.digitValue?
  rw [Bool.eq_iff_iff]
  simp only [le_iff_toNat, Char.reduceToNat]
  split_ifs <;> simp_all <;> omega

theorem hexNumber?_eq_some (hne : ds ≠ []) (h : ∀ d ∈ ds, Decimal.isDigitOf 16 d) :
    hexNumber? ds = some (Decimal.ofDigits 16 ds) := by
  have hall : ds.all (Decimal.isDigitOf 16) = true := all_eq_true.2 h
  simp [hexNumber?, hne, hall]

theorem isDigitOf_of_hexNumber? {n : Nat} (h : hexNumber? ds = some n) :
    ∀ d ∈ ds, Decimal.isDigitOf 16 d := by
  unfold hexNumber? at h
  split at h
  · cases h
  · rename_i hne
    simp only [Bool.or_eq_true, Bool.not_eq_true', not_or, Bool.not_eq_false] at hne
    exact all_eq_true.1 hne.2

/-- Four characters spell a surrogate exactly if the printer takes them for one. -/
theorem isSome_surrogate? (a b c d : Char) :
    (surrogate? [a, b, c, d]).isSome = Quoted.isSurrogate a b c d := by
  by_cases hall : ∀ x ∈ [a, b, c, d], Decimal.isDigitOf 16 x
  · obtain ⟨va, hva, ha, hD, -⟩ := exists_digitValue (hall a (by simp))
    obtain ⟨vb, hvb, hb, -, h8⟩ := exists_digitValue (hall b (by simp))
    obtain ⟨vc, hvc, hc, -, -⟩ := exists_digitValue (hall c (by simp))
    obtain ⟨vd, hvd, hd, -, -⟩ := exists_digitValue (hall d (by simp))
    have hnumber : Decimal.ofDigits 16 [a, b, c, d] = ((va * 16 + vb) * 16 + vc) * 16 + vd := by
      simp [Decimal.ofDigits, ha, hb, hc, hd]
    have hsurrogate : Quoted.isSurrogate a b c d = true ↔ va = 13 ∧ 8 ≤ vb := by
      rw [hD, ← Nat.not_lt, h8]
      simp [Quoted.isSurrogate, isHex_eq, hall b, hall c, hall d, -not_and, not_and_or]
    rw [surrogate?, hexNumber?_eq_some (by simp) hall, hnumber, Bool.eq_iff_iff, hsurrogate]
    simp
    omega
  · have hnone : hexNumber? [a, b, c, d] = none := by
      cases hn : hexNumber? [a, b, c, d] with
      | none => rfl
      | some n => exact absurd (isDigitOf_of_hexNumber? hn) hall
    have hsurrogate : Quoted.isSurrogate a b c d = false := by
      rw [Bool.eq_false_iff]
      intro hs
      simp only [Quoted.isSurrogate, isHex_eq, Bool.and_eq_true, Bool.or_eq_true, beq_iff_eq] at hs
      obtain ⟨⟨⟨⟨ha, hb⟩, -⟩, hc⟩, hd⟩ := hs
      have hdigit : Decimal.isDigitOf 16 a := by
        rcases ha with rfl | rfl
        · decide
        · decide
      exact hall (by simp [hdigit, hb, hc, hd])
    rw [surrogate?, hnone, hsurrogate]
    rfl


/-! ### One character -/

variable {q : Char} {n : Nat} {cs t rest : List Char} {u : List UInt16}

theorem charUnits_eq_codeUnits (c : Char) : charUnits c = codeUnits c.toNat := rfl

theorem readText_quote (q : Char) (n : Nat) (cs : List Char) :
    readText q (n + 1) (q :: cs) = some ([], cs) := by
  simp [readText]

theorem readText_backslash (hq : q ≠ '\\') (h : readEscape cs = some (u, t)) :
    readText q (n + 1) ('\\' :: cs) = (readText q n t).map fun s => (u ++ s.1, s.2) := by
  simp [readText, hq.symm, h]

theorem readText_plain (hq : c ≠ q) (hb : c ≠ '\\') (hn : c ≠ '\n') (hr : c ≠ '\r') :
    readText q (n + 1) (c :: t) = (readText q n t).map fun s => (charUnits c ++ s.1, s.2) := by
  simp [readText, hq, hb, hn, hr, charUnits_eq_codeUnits]

theorem hexNumber?_hexDigit {n : Nat} (h : n < 32) :
    hexNumber? [Quoted.hexDigit (n / 16), Quoted.hexDigit (n % 16)] = some n := by
  revert n
  decide

/-- A character other than a backslash or the quote is printed as it is, or as an escape that is
read as the character. Only the escape of NUL depends on what follows. -/
theorem escape_cases (hb : c ≠ '\\') (hq : c ≠ q) (r : List Char) :
    (Quoted.escape q c r = [c] ∧ c ≠ '\n' ∧ c ≠ '\r') ∨
      ∃ w, Quoted.escape q c r = '\\' :: w ∧
        ∀ t, (r.head?.any Char.isDigit = false → t.head?.any Char.isDigit = false) →
          readEscape (w ++ t) = some (charUnits c, t) := by
  rw [Quoted.escape, if_neg (by simpa using hb), if_neg (by simpa using hq), charUnits_eq_codeUnits]
  dsimp only
  by_cases h0 : c.toNat = 0
  · rw [if_pos h0, h0]
    cases hr : r.head?.any Char.isDigit with
    | true => exact .inr ⟨_, if_pos rfl, fun t _ => rfl⟩
    | false => exact .inr ⟨_, if_neg (by simp), fun t ht => by simp [readEscape, ht rfl]⟩
  rw [if_neg h0]
  by_cases h8 : c.toNat = 8
  · exact .inr ⟨_, if_pos h8, fun t _ => by rw [h8]; rfl⟩
  rw [if_neg h8]
  by_cases h12 : c.toNat = 12
  · exact .inr ⟨_, if_pos h12, fun t _ => by rw [h12]; rfl⟩
  rw [if_neg h12]
  by_cases h10 : c.toNat = 10
  · exact .inr ⟨_, if_pos h10, fun t _ => by rw [h10]; rfl⟩
  rw [if_neg h10]
  by_cases h13 : c.toNat = 13
  · exact .inr ⟨_, if_pos h13, fun t _ => by rw [h13]; rfl⟩
  rw [if_neg h13]
  by_cases h11 : c.toNat = 11
  · exact .inr ⟨_, if_pos h11, fun t _ => by rw [h11]; rfl⟩
  rw [if_neg h11]
  -- What is left is printed as it is or by its number.
  have hn : c ≠ '\n' := fun h => h10 (congrArg Char.toNat h)
  have hr : c ≠ '\r' := fun h => h13 (congrArg Char.toNat h)
  by_cases h9 : c.toNat = 9
  · exact .inl ⟨if_pos h9, hn, hr⟩
  rw [if_neg h9]
  by_cases h32 : c.toNat < 32
  · exact .inr ⟨_, if_pos h32, fun t _ => by simp [readEscape, hexNumber?_hexDigit h32]⟩
  rw [if_neg h32]
  by_cases h2028 : c.toNat = 0x2028
  · exact .inr ⟨_, if_pos h2028, fun t _ => by rw [h2028]; rfl⟩
  rw [if_neg h2028]
  by_cases h2029 : c.toNat = 0x2029
  · exact .inr ⟨_, if_pos h2029, fun t _ => by rw [h2029]; rfl⟩
  rw [if_neg h2029]
  by_cases hfeff : c.toNat = 0xFEFF
  · exact .inr ⟨_, if_pos hfeff, fun t _ => by rw [hfeff]; rfl⟩
  · exact .inl ⟨if_neg hfeff, hn, hr⟩

/-! ### Spelled surrogates -/

theorem surrogate?_eq_some :
    surrogate? ds = some n ↔ hexNumber? ds = some n ∧ 0xD800 ≤ n ∧ n ≤ 0xDFFF := by
  simp [surrogate?, Option.filter_eq_some_iff]

/-- Whether a character is printed as it is whatever follows it, between quotes of either kind. -/
def Plain (c : Char) : Prop := 32 ≤ c.toNat ∧ c.toNat < 127 ∧ c ≠ '"' ∧ c ≠ '\'' ∧ c ≠ '\\'
deriving Decidable

theorem escape_of_plain (hq : q = '"' ∨ q = '\'') (h : Plain c) (r : List Char) :
    Quoted.escape q c r = [c] := by
  obtain ⟨hlow, hhigh, hdouble, hsingle, hb⟩ := h
  have hcq : c ≠ q := by
    rcases hq with rfl | rfl
    · exact hdouble
    · exact hsingle
  rw [Quoted.escape, if_neg (by simpa using hb), if_neg (by simpa using hcq)]
  dsimp only
  rw [if_neg (by omega), if_neg (by omega), if_neg (by omega), if_neg (by omega),
    if_neg (by omega), if_neg (by omega), if_neg (by omega), if_neg (by omega),
    if_neg (by omega), if_neg (by omega), if_neg (by omega)]

theorem escapeAll_plain_append (hq : q = '"' ∨ q = '\'') {w : List Char} (h : ∀ c ∈ w, Plain c)
    (cs : List Char) : Quoted.escapeAll q (w ++ cs) = w ++ Quoted.escapeAll q cs := by
  induction w with
  | nil => rfl
  | cons c w ih =>
    rw [cons_append, Quoted.escapeAll, escape_of_plain hq (h c (by simp)),
      ih fun d hd => h d (mem_cons_of_mem c hd)]
    rfl

theorem plain_of_isDigitOf (h : Decimal.isDigitOf 16 c) : Plain c := by
  rw [← isHex_eq] at h
  simp only [Quoted.isHex, le_iff_toNat, Char.reduceToNat, Bool.or_eq_true, Bool.and_eq_true,
    decide_eq_true_eq] at h
  simp only [Plain, Ne, eq_iff_toNat, Char.reduceToNat]
  omega

/-- The digits of a surrogate are printed as they are, and are neither brace. -/
theorem exists_surrogate? {a b : Char} (h : Quoted.isSurrogate a b c d = true) :
    ∃ n, surrogate? [a, b, c, d] = some n ∧ hexNumber? [a, b, c, d] = some n ∧ n ≤ 0x10FFFF ∧
      codeUnits n = [n.toUInt16] ∧ ∀ x ∈ [a, b, c, d], Plain x ∧ x ≠ '\x7b' ∧ x ≠ '\x7d' := by
  rw [← isSome_surrogate?] at h
  obtain ⟨n, hn⟩ := Option.isSome_iff_exists.1 h
  obtain ⟨hnumber, hlow, hhigh⟩ := surrogate?_eq_some.1 hn
  refine ⟨n, hn, hnumber, by omega, if_pos (by omega), fun x hx => ?_⟩
  have hdigit := isDigitOf_of_hexNumber? hnumber x hx
  refine ⟨plain_of_isDigitOf hdigit, ?_, ?_⟩
  · rintro rfl
    exact absurd hdigit (by decide)
  · rintro rfl
    exact absurd hdigit (by decide)

/-- The spelling of a surrogate after its backslash: it is printed as it is, and the escape is
read as the surrogate. -/
theorem exists_spelling (h : Quoted.startsSurrogate cs = true) :
    ∃ w r n, cs = w ++ r ∧ spelled? ('\\' :: cs) = some (n, w.length) ∧ (∀ c ∈ w, Plain c) ∧
      ∀ t, readEscape (w ++ t) = some ([n.toUInt16], t) := by
  have hbraces : Plain 'u' ∧ Plain '\x7b' ∧ Plain '\x7d' := by decide
  unfold Quoted.startsSurrogate at h
  split at h
  · rename_i a b c d r
    obtain ⟨n, hn, hnumber, hpoint, hunit, hdigits⟩ := exists_surrogate? h
    simp only [mem_cons, not_mem_nil, or_false, forall_eq_or_imp, forall_eq] at hdigits
    refine ⟨['u', '\x7b', a, b, c, d, '\x7d'], r, n, rfl, by simp [spelled?, hn], ?_, ?_⟩
    · simp [hbraces, hdigits]
    · -- The brace that closes the escape is found, since no digit is a brace.
      intro t
      simp [readEscape, hdigits, hnumber, Option.filter, hpoint, hunit]
  · rename_i a b c d r hne
    obtain ⟨n, hn, hnumber, hpoint, hunit, hdigits⟩ := exists_surrogate? h
    simp only [mem_cons, not_mem_nil, or_false, forall_eq_or_imp, forall_eq] at hdigits
    refine ⟨['u', a, b, c, d], r, n, rfl, by simp [spelled?, hn], ?_, ?_⟩
    · simp [hbraces, hdigits]
    · intro t
      have ha : a ≠ '\x7b' := hdigits.1.2.1
      simp [readEscape, hnumber, hunit]
  · cases h

theorem spelled?_eq_none_of_ne (h : c ≠ '\\') : spelled? (c :: cs) = none := by
  unfold spelled?
  split <;> simp_all

theorem spelled?_eq_none (h : Quoted.startsSurrogate cs = false) :
    spelled? ('\\' :: cs) = none := by
  unfold spelled?
  split
  · rename_i a b c d r heq
    obtain rfl := (List.cons.inj heq).2
    rw [Quoted.startsSurrogate, ← isSome_surrogate?] at h
    simpa using h
  · rename_i a b c d r hne heq
    obtain rfl := (List.cons.inj heq).2
    rw [Quoted.startsSurrogate, ← isSome_surrogate?] at h
    · simpa using h
    · exact hne
  · rfl

theorem meantFrom_append (w r : List Char) : meantFrom w.length (w ++ r) = meantFrom 0 r := by
  induction w with
  | nil => rfl
  | cons c w ih => exact ih

/-! ### String literals -/

theorem escape_backslash (q : Char) (r : List Char) :
    Quoted.escape q '\\' r = if Quoted.startsSurrogate r then ['\\'] else ['\\', '\\'] :=
  rfl

theorem escape_quote (hq : q ≠ '\\') (r : List Char) : Quoted.escape q q r = ['\\', q] := by
  simp [Quoted.escape, hq]

/-- Something is printed for every character, and it begins with the character or a backslash. -/
theorem exists_escape_eq_cons (q c : Char) (r : List Char) :
    ∃ d w, Quoted.escape q c r = d :: w ∧ (d = c ∨ d = '\\') := by
  by_cases hc : c = '\\'
  · subst hc
    rw [escape_backslash]
    split
    · exact ⟨_, _, rfl, .inl rfl⟩
    · exact ⟨_, _, rfl, .inl rfl⟩
  by_cases hq : c = q
  · subst hq
    exact ⟨_, _, escape_quote hc r, .inr rfl⟩
  rcases escape_cases hc hq r with ⟨hself, -⟩ | ⟨w, hw, -⟩
  · exact ⟨_, _, hself, .inl rfl⟩
  · exact ⟨_, _, hw, .inr rfl⟩

theorem length_le_length_escapeAll (q : Char) (cs : List Char) :
    cs.length ≤ (Quoted.escapeAll q cs).length := by
  induction cs with
  | nil => exact Nat.zero_le _
  | cons c cs ih =>
    obtain ⟨d, w, hw, -⟩ := exists_escape_eq_cons q c cs
    rw [Quoted.escapeAll, hw, length_append, length_cons, length_cons]
    omega

/-- No digit is printed first where none stands first. -/
theorem head_escapeAll_append (hq : q = '"' ∨ q = '\'') (cs rest : List Char)
    (h : cs.head?.any Char.isDigit = false) :
    (Quoted.escapeAll q cs ++ q :: rest).head?.any Char.isDigit = false := by
  cases cs with
  | nil => rcases hq with rfl | rfl <;> rfl
  | cons c cs =>
    obtain ⟨d, w, hw, hd⟩ := exists_escape_eq_cons q c cs
    rw [Quoted.escapeAll, hw]
    rcases hd with rfl | rfl
    · exact h
    · rfl

/-- What is read where a character other than a backslash was printed. -/
theorem readText_escape (hq : q = '"' ∨ q = '\'') (hc : c ≠ '\\')
    (ht : cs.head?.any Char.isDigit = false → t.head?.any Char.isDigit = false) :
    readText q (n + 1) (Quoted.escape q c cs ++ t) =
      (readText q n t).map fun s => (charUnits c ++ s.1, s.2) := by
  have hqb : q ≠ '\\' := by
    rcases hq with rfl | rfl <;> decide
  by_cases hcq : c = q
  · subst hcq
    have hread : readEscape (c :: t) = some (charUnits c, t) := by
      rcases hq with rfl | rfl <;> rfl
    rw [escape_quote hqb]
    exact readText_backslash hqb hread
  · rcases escape_cases hc hcq cs with ⟨hself, hn, hr⟩ | ⟨w, hw, hread⟩
    · rw [hself]
      exact readText_plain hcq hc hn hr
    · rw [hw]
      exact readText_backslash hqb (hread t ht)

/-- The text between the quotes is read as what was meant by it. -/
theorem readText_escapeAll (hq : q = '"' ∨ q = '\'') (h : cs.length < n) :
    readText q n (Quoted.escapeAll q cs ++ q :: rest) = some (meantFrom 0 cs, rest) := by
  have hqb : q ≠ '\\' := by
    rcases hq with rfl | rfl <;> decide
  induction n generalizing cs with
  | zero => omega
  | succ n ih =>
    cases cs with
    | nil => exact readText_quote q n rest
    | cons c cs =>
      rw [length_cons] at h
      rw [Quoted.escapeAll, append_assoc]
      by_cases hc : c = '\\'
      · subst hc
        cases hs : Quoted.startsSurrogate cs with
        | true =>
          -- The spelling is read as one escape, and the induction goes on behind it.
          obtain ⟨w, r, m, rfl, hspelled, hplain, hread⟩ := exists_spelling hs
          have hr : r.length < n := by
            rw [length_append] at h
            omega
          rw [escape_backslash, if_pos hs, escapeAll_plain_append hq hplain,
            append_assoc, singleton_append,
            readText_backslash hqb (hread _), ih hr, meantFrom, hspelled]
          dsimp only
          rw [meantFrom_append]
          rfl
        | false =>
          have hread (t : List Char) : readEscape ('\\' :: t) = some (charUnits '\\', t) := rfl
          rw [escape_backslash, if_neg (by simp [hs])]
          change readText q (n + 1) ('\\' :: '\\' :: (Quoted.escapeAll q cs ++ q :: rest)) = _
          rw [readText_backslash hqb (hread _), ih (by omega), meantFrom, spelled?_eq_none hs]
          rfl
      · rw [readText_escape hq hc (head_escapeAll_append hq cs rest), ih (by omega), meantFrom,
          spelled?_eq_none_of_ne hc]
        rfl

theorem quoteFor_cases (cs : List Char) : Quoted.quoteFor cs = '"' ∨ Quoted.quoteFor cs = '\'' := by
  unfold Quoted.quoteFor
  split
  · exact .inr rfl
  · exact .inl rfl

theorem toList_string (s : String) :
    (Quoted.string s).toList =
    Quoted.quoteFor s.toList :: (Quoted.escapeAll (Quoted.quoteFor s.toList) s.toList ++
      [Quoted.quoteFor s.toList]) := by
  rw [Quoted.string, String.toList_ofList]
  rfl

/-- A printed text is read as what is meant by it, whatever follows. -/
theorem readString_string (s : String) (rest : List Char) :
    readString ((Quoted.string s).toList ++ rest) = some (meant s, rest) := by
  have hq := quoteFor_cases s.toList
  have hlength := length_le_length_escapeAll (Quoted.quoteFor s.toList) s.toList
  rw [toList_string, cons_append, append_assoc, singleton_append, readString,
    if_pos hq]
  refine readText_escapeAll hq ?_
  rw [length_append, length_cons]
  omega

/-! ### What is meant and what is written -/

theorem length_charUnits_pos (c : Char) : 0 < (charUnits c).length := by
  rw [charUnits_eq_codeUnits, codeUnits]
  split
  · exact Nat.zero_lt_one
  · exact Nat.zero_lt_two

theorem meantFrom_of_not_spellsSurrogate (h : spellsSurrogate cs = false) :
    meantFrom 0 cs = cs.flatMap charUnits := by
  induction cs with
  | nil => rfl
  | cons c cs ih =>
    rw [spellsSurrogate, Bool.or_eq_false_iff] at h
    obtain ⟨hhead, htail⟩ := h
    rw [meantFrom, Option.isSome_eq_false_iff.1 hhead |> Option.isNone_iff_eq_none.1, ih htail]
    rfl

/-- Skipped characters are missing from the units that are meant, and nothing is added. -/
theorem length_meantFrom_add_le (k : Nat) (cs : List Char) :
    (meantFrom k cs).length + min k cs.length ≤ (cs.flatMap charUnits).length := by
  induction cs generalizing k with
  | nil => simp [meantFrom]
  | cons c cs ih =>
    have hpos := length_charUnits_pos c
    rw [flatMap_cons, length_append, length_cons]
    cases k with
    | succ k =>
      have hskip := ih k
      rw [meantFrom]
      omega
    | zero =>
      rw [meantFrom]
      split
      · rename_i s hs
        have hskip := ih s.2
        rw [length_cons]
        omega
      · have hrest := ih 0
        rw [length_append]
        omega

theorem spelled?_length {s : Nat × Nat} (h : spelled? cs = some s) : 0 < s.2 ∧ s.2 < cs.length := by
  unfold spelled? at h
  split at h
  · obtain ⟨n, -, rfl⟩ := Option.map_eq_some_iff.1 h
    simp
  · obtain ⟨n, -, rfl⟩ := Option.map_eq_some_iff.1 h
    simp
  · cases h

theorem length_meantFrom_lt (h : spellsSurrogate cs = true) :
    (meantFrom 0 cs).length < (cs.flatMap charUnits).length := by
  induction cs with
  | nil => cases h
  | cons c cs ih =>
    have hpos := length_charUnits_pos c
    rw [flatMap_cons, length_append, meantFrom]
    cases hs : spelled? (c :: cs) with
    | some s =>
      obtain ⟨hskip, hlength⟩ := spelled?_length hs
      have hrest := length_meantFrom_add_le s.2 cs
      rw [length_cons] at hlength
      dsimp only
      rw [length_cons]
      omega
    | none =>
      have htail : spellsSurrogate cs = true := by simpa [spellsSurrogate, hs] using h
      have hrest := ih htail
      dsimp only
      rw [length_append]
      omega

/-- A text is read back as it is exactly if it spells no surrogate out. -/
theorem meant_eq_units_iff (s : String) : meant s = units s ↔ spellsSurrogate s.toList = false := by
  refine ⟨fun h => ?_, meantFrom_of_not_spellsSurrogate⟩
  rw [← Bool.not_eq_true]
  intro hs
  have hlt := length_meantFrom_lt hs
  rw [meant, units] at h
  rw [h] at hlt
  exact lt_irrefl _ hlt

theorem spellsSurrogate_eq_false (h : '\\' ∉ cs) : spellsSurrogate cs = false := by
  induction cs with
  | nil => rfl
  | cons c cs ih =>
    rw [mem_cons, not_or] at h
    rw [spellsSurrogate, spelled?_eq_none_of_ne (Ne.symm h.1), ih h.2]
    rfl

end ReadBack
end AtomicStyles
