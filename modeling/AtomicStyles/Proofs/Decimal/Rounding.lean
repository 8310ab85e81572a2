import Mathlib
import AtomicStyles.Decimal.Shortest

/-!
# Shortest decimals round to their numbers

The magnitudes that round to a number form an interval. The search for the shortest decimal tries
coarse grids first and comes to the grid on which the number itself lies at the latest, so it
ends with a decimal in the interval. Numbers of one sign are ordered as their bits, and the
upper end of an interval is the lower end of the next; it belongs to at most one of them, since
the mantissas of neighbours differ in parity. So a decimal rounds to one number only.

* `Binary.Rounds` — a magnitude rounds to a number.
* `Shortest.rounds_ofBinary` — the shortest decimal of a number rounds to it.
* `magnitude`, `edge` — the magnitudes by their bits, and the middles between neighbours.
* `eq_of_rounds` — no magnitude rounds to two numbers.
-/

namespace AtomicStyles
namespace Decimal

/-- The lower end of the interval of magnitudes that round to a number. -/
def Binary.lower (b : Binary) : ℚ :=
  (4 * b.mantissa - if b.boundary then 1 else 2) * 2 ^ (b.exponent - 2)

/-- The upper end of the interval. -/
def Binary.upper (b : Binary) : ℚ := (4 * b.mantissa + 2) * 2 ^ (b.exponent - 2)

/-- A magnitude rounds to the number: it lies in the interval, whose ends belong to it if the
mantissa is even. -/
def Binary.Rounds (b : Binary) (q : ℚ) : Prop :=
  if b.mantissa % 2 = 0 then b.lower ≤ q ∧ q ≤ b.upper else b.lower < q ∧ q < b.upper

namespace Shortest

/-! ### Windows -/

theorem cast_pow_up (e : ℤ) :
    ((if 0 ≤ e then Nat.pow 2 e.toNat else 1 : ℕ) : ℚ) =
      2 ^ e * ((if 0 ≤ e then 1 else Nat.pow 2 (-e).toNat : ℕ) : ℚ) := by
  split
  · next h =>
    obtain ⟨n, rfl⟩ := Int.eq_ofNat_of_zero_le h
    simp
  · next h =>
    obtain ⟨n, hn⟩ := Int.eq_ofNat_of_zero_le (show 0 ≤ -e by omega)
    obtain rfl : e = -(n : ℤ) := by omega
    simp

theorem cast_pow_down (s : ℤ) :
    ((if s < 0 then Nat.pow 10 (-s).toNat else 1 : ℕ) : ℚ) =
      10 ^ (-s) * ((if s < 0 then 1 else Nat.pow 10 s.toNat : ℕ) : ℚ) := by
  split
  · next h =>
    obtain ⟨n, hn⟩ := Int.eq_ofNat_of_zero_le (show 0 ≤ -s by omega)
    simp [hn]
  · next h =>
    obtain ⟨n, rfl⟩ := Int.eq_ofNat_of_zero_le (not_lt.1 h)
    simp

/-- What a window stands for, on the grid of multiples of `10 ^ s`. -/
structure Window.Stands (w : Window) (b : Binary) (s : ℤ) : Prop where
  den_pos : 0 < w.den
  low : (w.low : ℚ) = b.lower * (10 ^ (-s) * w.den)
  mid : (w.mid : ℚ) = b.mantissa * 2 ^ b.exponent * (10 ^ (-s) * w.den)
  high : (w.high : ℚ) = b.upper * (10 ^ (-s) * w.den)
  closed : w.closed = decide (b.mantissa % 2 = 0)

variable {b : Binary} {w : Window} {s : ℤ} {n : ℕ}

theorem stands_scaled (hb : 0 < b.mantissa) (s : ℤ) : (Window.scaled b s).Stands b s := by
  have hup := cast_pow_up b.exponent
  have hnum := cast_pow_down s
  have hquarter : (2 : ℚ) ^ (b.exponent - 2) = 2 ^ b.exponent / 4 := by
    rw [zpow_sub₀ (by norm_num)]
    norm_num
  unfold Window.scaled
  dsimp only
  generalize (if 0 ≤ b.exponent then Nat.pow 2 b.exponent.toNat else 1) = up at hup ⊢
  generalize hdown : (if 0 ≤ b.exponent then 1 else Nat.pow 2 (-b.exponent).toNat) = down at hup ⊢
  generalize (if s < 0 then Nat.pow 10 (-s).toNat else 1) = num at hnum ⊢
  generalize hden : (if s < 0 then 1 else Nat.pow 10 s.toNat) = den at hnum ⊢
  have hunit : (up : ℚ) * num = 2 ^ b.exponent * 10 ^ (-s) * (down * den) := by
    rw [hup, hnum]
    ring
  have hbelow : (if b.boundary then up * num else 2 * (up * num)) ≤ 4 * b.mantissa * (up * num) := by
    split <;> nlinarith [Nat.zero_le (up * num)]
  refine ⟨?_, ?_, ?_, ?_, rfl⟩
  · have hdown' : 0 < down := by
      rw [← hdown]
      split
      exacts [Nat.one_pos, Nat.pow_pos (by decide)]
    have hden' : 0 < den := by
      rw [← hden]
      split
      exacts [Nat.one_pos, Nat.pow_pos (by decide)]
    positivity
  · rw [Binary.lower, hquarter, Nat.cast_sub hbelow]
    by_cases hboundary : b.boundary <;> simp only [hboundary] <;> push_cast <;> rw [hunit] <;> ring
  · push_cast
    rw [hunit]
    ring
  · rw [Binary.upper, hquarter]
    push_cast
    rw [hunit]
    ring

theorem rounds_of_holds (hw : w.Stands b s) (h : w.holds n) : b.Rounds (n * 10 ^ s) := by
  have hden : (0 : ℚ) < 10 ^ (-s) * w.den := by
    have := hw.den_pos
    positivity
  have hgrid : (n * w.den : ℚ) = n * 10 ^ s * (10 ^ (-s) * w.den) := by
    rw [zpow_neg]
    field_simp
  -- numerators over the denominator of the window compare as what they stand for
  have hle : ∀ {q r : ℚ} {k l : ℕ}, (k : ℚ) = q * (10 ^ (-s) * w.den) →
      (l : ℚ) = r * (10 ^ (-s) * w.den) → (k ≤ l ↔ q ≤ r) ∧ (k < l ↔ q < r) := by
    intro q r k l hk hl
    rw [← Nat.cast_le (α := ℚ), ← Nat.cast_lt (α := ℚ), hk, hl, mul_le_mul_iff_left₀ hden,
      mul_lt_mul_iff_left₀ hden]
    exact ⟨.rfl, .rfl⟩
  have hn : ((n * w.den : ℕ) : ℚ) = n * 10 ^ s * (10 ^ (-s) * w.den) := by
    rw [Nat.cast_mul, hgrid]
  have hlow := hle hw.low hn
  have hhigh := hle hn hw.high
  unfold Window.holds at h
  rw [hw.closed] at h
  unfold Binary.Rounds
  by_cases heven : b.mantissa % 2 = 0
  · rw [if_pos heven]
    rw [decide_eq_true heven, if_pos rfl, Bool.and_eq_true, decide_eq_true_eq, decide_eq_true_eq,
      hlow.1, hhigh.1] at h
    exact h
  · rw [if_neg heven]
    rw [decide_eq_false heven, if_neg (by decide), Bool.and_eq_true, decide_eq_true_eq,
      decide_eq_true_eq, hlow.2, hhigh.2] at h
    exact h

/-- The middle of a window lies inside. -/
theorem Window.Stands.mid_mem (hw : w.Stands b s) : w.low < w.mid ∧ w.mid < w.high := by
  have hunit : (0 : ℚ) < 10 ^ (-s) * w.den := by
    have := hw.den_pos
    positivity
  have hpow : (0 : ℚ) < 2 ^ b.exponent := by positivity
  rw [← Nat.cast_lt (α := ℚ), ← Nat.cast_lt (α := ℚ), hw.low, hw.mid, hw.high,
    mul_lt_mul_iff_left₀ hunit, mul_lt_mul_iff_left₀ hunit, Binary.lower, Binary.upper,
    zpow_sub₀ (by norm_num)]
  constructor
  · split <;> norm_num <;> linarith
  · norm_num
    linarith

/-! ### The search -/

theorem nearest?_eq_some {tie : Tie} (h : w.nearest? tie = some n) : 0 < n ∧ w.holds n := by
  have hpick : ∀ {p q : ℕ}, (if 0 < p && w.holds p then some p
      else if 0 < q && w.holds q then some q else none) = some n → 0 < n ∧ w.holds n := by
    intro p q h
    split at h
    · next hp =>
      cases h
      simpa using hp
    · split at h
      · next hq =>
        cases h
        simpa using hq
      · cases h
  exact hpick h

/-- A grid on which the number itself lies has a point in the window. -/
theorem nearest?_of_grid (hb : 0 < b.mantissa) (tie : Tie)
    (hn : (n : ℚ) = b.mantissa * 2 ^ b.exponent * 10 ^ (-s)) :
    (Window.scaled b s).nearest? tie = some n := by
  have hw := stands_scaled hb s
  obtain ⟨hlow, hhigh⟩ := hw.mid_mem
  generalize Window.scaled b s = w at hw hlow hhigh ⊢
  have hmid : w.mid = n * w.den := by
    have hcast := hw.mid
    rw [← mul_assoc, ← hn] at hcast
    exact_mod_cast hcast
  have hpos : 0 < n := by
    rw [← Nat.cast_pos (α := ℚ), hn]
    positivity
  have hfloor : w.mid / w.den = n := by rw [hmid, Nat.mul_div_cancel _ hw.den_pos]
  have hrest : w.mid % w.den = 0 := by rw [hmid, Nat.mul_mod_left]
  have hholds : w.holds n := by
    unfold Window.holds
    rw [← hmid]
    split <;> simp [hlow, hhigh, hlow.le, hhigh.le]
  simp [Window.nearest?, hfloor, hrest, hw.den_pos, hpos, hholds]

theorem search_spec {tie : Tie} {fuel : ℕ}
    (h : ∃ k < fuel, (Window.scaled b (s - k)).nearest? tie ≠ none) :
    0 < (search b tie s fuel).digits ∧
      (Window.scaled b (search b tie s fuel).scale).holds (search b tie s fuel).digits := by
  induction fuel generalizing s with
  | zero =>
    obtain ⟨k, hk, -⟩ := h
    exact absurd hk (Nat.not_lt_zero k)
  | succ fuel ih =>
    rw [search]
    split
    · next n hsome => exact nearest?_eq_some hsome
    · next hnone =>
      obtain ⟨k, hk, hne⟩ := h
      cases k with
      | zero => exact absurd (by simpa using hnone) hne
      | succ k =>
        refine ih ⟨k, Nat.lt_of_succ_lt_succ hk, ?_⟩
        rwa [sub_sub, add_comm 1, ← Nat.cast_succ]

theorem strip_spec {d : Digits} (h : 0 < d.digits) (fuel : ℕ) :
    0 < (strip d fuel).digits ∧
      ((strip d fuel).digits : ℚ) * 10 ^ (strip d fuel).scale = d.digits * 10 ^ d.scale := by
  induction fuel generalizing d with
  | zero => exact ⟨h, rfl⟩
  | succ fuel ih =>
    rw [strip]
    split
    · next hzero =>
      simp only [ne_eq, decide_not, Bool.and_eq_true, Bool.not_eq_true', decide_eq_false_iff_not,
        decide_eq_true_eq] at hzero
      have hten : d.digits = d.digits / 10 * 10 := by omega
      have hpos' : 0 < d.digits / 10 := by omega
      obtain ⟨hpos, hvalue⟩ := @ih ⟨d.digits / 10, d.scale + 1⟩ hpos'
      refine ⟨hpos, hvalue.trans ?_⟩
      rw [zpow_add_one₀ (by norm_num), mul_comm _ (10 : ℚ), ← mul_assoc]
      exact_mod_cast congrArg (fun n : ℕ => (n : ℚ) * 10 ^ d.scale) hten.symm
    · exact ⟨h, rfl⟩

theorem countDigits_le {d : ℕ} (fuel : ℕ) (h : n < 10 ^ d ∨ fuel ≤ d) : countDigits n fuel ≤ d := by
  induction fuel generalizing n d with
  | zero => exact Nat.zero_le d
  | succ fuel ih =>
    rw [countDigits]
    split
    · exact Nat.zero_le d
    · cases d with
      | zero => omega
      | succ d => exact Nat.succ_le_succ (ih (by omega))

/-! ### The shortest decimal -/

theorem ten_pow_le {j : ℕ} (hj : j ≤ 358) : 10 ^ j ≤ 10 ^ 60 * 8 ^ j := by
  refine Nat.le_of_mul_le_mul_right ?_ (pow_pos (by decide : 0 < 8) (358 - j))
  calc 10 ^ j * 8 ^ (358 - j) ≤ 10 ^ j * 10 ^ (358 - j) := by gcongr; decide
    _ = 10 ^ 358 := by rw [← pow_add, Nat.add_sub_cancel' hj]
    _ ≤ 10 ^ 60 * 8 ^ 358 := by decide +kernel
    _ = 10 ^ 60 * 8 ^ j * 8 ^ (358 - j) := by rw [mul_assoc, ← pow_add, Nat.add_sub_cancel' hj]

/-- The search starts close enough to the grid on which the number lies. -/
theorem exists_nearest? (tie : Tie) (hpos : 0 < b.mantissa) (hlt : b.mantissa < 2 ^ 53)
    (hexp : -1074 ≤ b.exponent) :
    ∃ k : ℕ, k < 800 ∧ (Window.scaled b (startScale b - k)).nearest? tie ≠ none := by
  by_cases he : 0 ≤ b.exponent
  · obtain ⟨e, he'⟩ := Int.eq_ofNat_of_zero_le he
    have hcount := countDigits_le (n := b.mantissa * Nat.pow 2 b.exponent.toNat) 400 (.inr le_rfl)
    refine ⟨_, hcount.trans_lt (by decide), ?_⟩
    rw [startScale, if_pos he, sub_self,
      nearest?_of_grid (n := b.mantissa * 2 ^ e) hpos tie (by simp [he'])]
    exact Option.some_ne_none _
  · obtain ⟨p, hp⟩ := Int.eq_ofNat_of_zero_le (show 0 ≤ -b.exponent by omega)
    have hj : p / 3 ≤ 358 := by omega
    have hsize : b.mantissa * 10 ^ (p / 3 + 1) < 2 ^ p * 10 ^ 83 := by
      calc b.mantissa * 10 ^ (p / 3 + 1) < 2 ^ 53 * 10 ^ (p / 3 + 1) := by gcongr
        _ = 2 ^ 53 * 10 * 10 ^ (p / 3) := by ring
        _ ≤ 2 ^ 53 * 10 * (10 ^ 60 * 8 ^ (p / 3)) := by gcongr; exact ten_pow_le hj
        _ = 2 ^ (3 * (p / 3)) * (2 ^ 53 * 10 ^ 61) := by rw [pow_mul]; ring
        _ ≤ 2 ^ p * 10 ^ 83 := by gcongr <;> omega
    have hcount := countDigits_le 800 (.inl (Nat.div_lt_of_lt_mul hsize))
    generalize hc : countDigits (b.mantissa * 10 ^ (p / 3 + 1) / 2 ^ p) 800 = count at hcount
    refine ⟨count + (p - p / 3), by omega, ?_⟩
    have hscale : startScale b - (count + (p - p / 3) : ℕ) = b.exponent := by
      rw [startScale, if_neg he, hp, Int.toNat_natCast]
      simp only [Nat.pow_eq, hc]
      omega
    have hgrid : ((b.mantissa * 5 ^ p : ℕ) : ℚ) =
        b.mantissa * 2 ^ b.exponent * 10 ^ (-b.exponent) := by
      have hten : (10 : ℚ) ^ p = 2 ^ p * 5 ^ p := by
        rw [← mul_pow]
        norm_num
      obtain he' : b.exponent = -(p : ℤ) := by omega
      rw [he', neg_neg, zpow_neg, zpow_natCast, zpow_natCast, hten]
      push_cast
      field_simp
    rw [hscale, nearest?_of_grid hpos tie hgrid]
    exact Option.some_ne_none _

theorem rounds_ofBinary (tie : Tie) (hpos : 0 < b.mantissa) (hlt : b.mantissa < 2 ^ 53)
    (hexp : -1074 ≤ b.exponent) :
    0 < (ofBinary b tie).digits ∧
      b.Rounds ((ofBinary b tie).digits * 10 ^ (ofBinary b tie).scale) := by
  obtain ⟨hdigits, hholds⟩ := search_spec (exists_nearest? tie hpos hlt hexp)
  obtain ⟨hstrip, hvalue⟩ := strip_spec hdigits 800
  rw [ofBinary, if_neg hpos.ne', hvalue]
  exact ⟨hstrip, rounds_of_holds (stands_scaled hpos _) hholds⟩

end Shortest

/-! ### The order of the numbers -/

/-- The distance from the magnitude with the bits `k` to the next one. -/
def spacing (k : ℕ) : ℚ := 2 ^ ((max (k / 2 ^ 52) 1 : ℕ) - 1075 : ℤ)

/-- The magnitude with the bits `k`. -/
def magnitude (k : ℕ) : ℚ := (k % 2 ^ 52 + if k / 2 ^ 52 = 0 then 0 else 2 ^ 52 : ℕ) * spacing k

/-- Half the way from a magnitude to the next one. -/
def edge (k : ℕ) : ℚ := magnitude k + spacing k / 2

theorem spacing_pos (k : ℕ) : 0 < spacing k := zpow_pos (by norm_num) _

theorem spacing_succ (k : ℕ) :
    spacing (k + 1) = if (k + 1) % 2 ^ 52 = 0 ∧ 1 < (k + 1) / 2 ^ 52 then 2 * spacing k
      else spacing k := by
  unfold spacing
  split
  · next h =>
    have hmax : ((max ((k + 1) / 2 ^ 52) 1 : ℕ) : ℤ) - 1075 = (max (k / 2 ^ 52) 1 : ℕ) - 1075 + 1 := by
      omega
    rw [hmax, zpow_add_one₀ (by norm_num), mul_comm]
  · next h =>
    have hmax : max ((k + 1) / 2 ^ 52) 1 = max (k / 2 ^ 52) 1 := by omega
    rw [hmax]

theorem magnitude_succ (k : ℕ) : magnitude (k + 1) = magnitude k + spacing k := by
  have hdigits : (if (k + 1) % 2 ^ 52 = 0 ∧ 1 < (k + 1) / 2 ^ 52 then 2 else 1) *
      ((k + 1) % 2 ^ 52 + if (k + 1) / 2 ^ 52 = 0 then 0 else 2 ^ 52) =
        (k % 2 ^ 52 + if k / 2 ^ 52 = 0 then 0 else 2 ^ 52) + 1 := by
    split_ifs <;> omega
  unfold magnitude
  rw [spacing_succ]
  generalize ((k + 1) % 2 ^ 52 + if (k + 1) / 2 ^ 52 = 0 then 0 else 2 ^ 52) = n at hdigits ⊢
  have hcast := congrArg (fun n : ℕ => (n : ℚ) * spacing k) hdigits
  push_cast at hcast ⊢
  split_ifs at hcast ⊢ <;> linarith

theorem edge_strictMono : StrictMono edge := by
  refine strictMono_nat_of_lt_succ fun k => ?_
  rw [edge, edge, magnitude_succ]
  linarith [spacing_pos k, spacing_pos (k + 1)]

/-- The number with the given sign whose magnitude has the bits `k`. -/
def Binary.ofBits (negative : Bool) (k : ℕ) : Binary where
  negative := negative
  mantissa := k % 2 ^ 52 + if k / 2 ^ 52 = 0 then 0 else 2 ^ 52
  exponent := (max (k / 2 ^ 52) 1 : ℕ) - 1075
  boundary := decide (k % 2 ^ 52 = 0 ∧ 1 < k / 2 ^ 52)

theorem Binary.ofFloat?_eq_some {x : Float} {b : Binary} (h : ofFloat? x = some b) :
    b = .ofBits (2 ^ 63 ≤ x.toBits.toNat) (x.toBits.toNat % 2 ^ 63) := by
  have hlt := x.toBits.toNat_lt
  unfold ofFloat? at h
  simp only [Nat.pow_eq] at h
  generalize x.toBits.toNat = bits at h hlt ⊢
  split_ifs at h with hnan hzero <;> cases h <;> rw [ofBits, Binary.mk.injEq]
  · refine ⟨rfl, ?_, by omega, (decide_eq_false (by omega)).symm⟩
    rw [if_pos (by omega)]
    omega
  · refine ⟨rfl, ?_, by omega, ?_⟩
    · rw [if_neg (by omega)]
      omega
    · rw [← Bool.decide_and, decide_eq_decide]
      omega

theorem Binary.upper_ofBits (negative : Bool) (k : ℕ) : (ofBits negative k).upper = edge k := by
  rw [upper, edge, magnitude, spacing, ofBits, zpow_sub₀ (by norm_num)]
  norm_num
  ring

theorem Binary.lower_ofBits (negative : Bool) (k : ℕ) : (ofBits negative (k + 1)).lower = edge k := by
  have hedge : edge k = magnitude (k + 1) - spacing k / 2 := by
    rw [edge, magnitude_succ]
    ring
  have hlower : (ofBits negative (k + 1)).lower = magnitude (k + 1) -
      (if (k + 1) % 2 ^ 52 = 0 ∧ 1 < (k + 1) / 2 ^ 52 then 1 else 2) / 4 * spacing (k + 1) := by
    rw [lower, magnitude, spacing, ofBits, zpow_sub₀ (by norm_num)]
    simp only [decide_eq_true_eq]
    ring
  rw [hedge, hlower, spacing_succ]
  split <;> ring

/-- What rounds to a number lies between its edges, and on them only if its bits are even. -/
theorem between_edges {negative : Bool} {k : ℕ} {q : ℚ}
    (h : (Binary.ofBits negative (k + 1)).Rounds q) :
    (edge k ≤ q ∧ q ≤ edge (k + 1)) ∧ (edge k = q ∨ q = edge (k + 1) → (k + 1) % 2 = 0) := by
  have heven : (Binary.ofBits negative (k + 1)).mantissa % 2 = (k + 1) % 2 := by
    rw [Binary.ofBits]
    dsimp only
    split <;> omega
  rw [Binary.Rounds, Binary.lower_ofBits, Binary.upper_ofBits, heven] at h
  split at h
  · next hk => exact ⟨h, fun _ => hk⟩
  · exact ⟨⟨h.1.le, h.2.le⟩, fun hq => absurd hq (not_or.2 ⟨h.1.ne, h.2.ne⟩)⟩

theorem eq_of_rounds {negative negative' : Bool} {k k' : ℕ} {q : ℚ}
    (h : (Binary.ofBits negative (k + 1)).Rounds q)
    (h' : (Binary.ofBits negative' (k' + 1)).Rounds q) : k = k' := by
  wlog hlt : k < k' generalizing k k' negative negative'
  · rcases Nat.lt_trichotomy k k' with hk | hk | hk
    · exact absurd hk hlt
    · exact hk
    · exact (this h' h hk).symm
  -- the upper edge of the one and the lower edge of the other meet in the magnitude
  obtain ⟨⟨-, hupper⟩, heven⟩ := between_edges h
  obtain ⟨⟨hlower, -⟩, heven'⟩ := between_edges h'
  have hedges : edge (k + 1) ≤ edge k' := edge_strictMono.monotone hlt
  have hq : q = edge (k + 1) := le_antisymm hupper (hedges.trans hlower)
  have hq' : edge k' = q := le_antisymm hlower (hupper.trans hedges)
  have hsucc : k' = k + 1 := edge_strictMono.injective (hq'.trans hq)
  have hparity := heven (.inr hq)
  have hparity' := heven' (.inl hq')
  omega

end Decimal
end AtomicStyles
