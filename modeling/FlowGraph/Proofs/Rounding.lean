import Mathlib.Algebra.Order.Field.Basic
import Mathlib.Tactic
import FlowGraph.Double.Nearest
import FlowGraph.Double.Shortest

/-! # Rounding to doubles

    Ratios and decimals are read as the nearest double. Around each double lie
    the numbers that round to it (`RoundingInterval.Holds`): whatever is read of
    them is this double.

    * `ofRatio_of_holds` reads a ratio. Its scale may come out one too small,
      for a number just below a power of two; its mantissa is then rounded up
      to the power.
    * `ofDecimal_of_holds` reads a decimal, which is a ratio of powers of ten.
-/

namespace FlowGraph

/-! ## Powers -/

/-- A power of a base, with a negative exponent in the denominator. -/
theorem zpow_eq_div {b : ℕ} (hb : 0 < b) (z : ℤ) : (b : ℚ) ^ z = (b : ℚ) ^ z.toNat / (b : ℚ) ^ (-z).toNat := by
  have hb' : (b : ℚ) ≠ 0 := by positivity
  rw [← zpow_natCast, ← zpow_natCast, ← zpow_sub₀ hb']
  congr 1
  omega

theorem two_zpow_eq_div (z : ℤ) : (2 : ℚ) ^ z = 2 ^ z.toNat / 2 ^ (-z).toNat := by
  exact_mod_cast zpow_eq_div (b := 2) (by decide) z

theorem ten_zpow_eq_div (z : ℤ) : (10 : ℚ) ^ z = 10 ^ z.toNat / 10 ^ (-z).toNat := by
  exact_mod_cast zpow_eq_div (b := 10) (by decide) z

section

variable {p q : ℤ}

theorem ten_zpow_le_of_zpow_le {a b : ℕ} (ha : a ≠ 0) (hbase : ((10 : ℚ) ^ a) ^ p ≤ (2 ^ b) ^ p) (hexponent : b * p ≤ a * q) :
    (10 : ℚ) ^ p ≤ 2 ^ q := by
  rw [← pow_le_pow_iff_left₀ (by positivity) (by positivity) ha]
  calc ((10 : ℚ) ^ p) ^ a = (10 ^ a) ^ p := by rw [← zpow_natCast, ← zpow_natCast, ← zpow_mul, ← zpow_mul, mul_comm]
    _ ≤ (2 ^ b) ^ p := hbase
    _ = 2 ^ (b * p) := by rw [zpow_mul, zpow_natCast]
    _ ≤ 2 ^ (a * q) := zpow_le_zpow_right₀ one_le_two hexponent
    _ = (2 ^ q) ^ a := by rw [mul_comm, zpow_mul, zpow_natCast]

/-- Three decimal digits are less than ten binary ones, and ninety-three
    binary ones less than twenty-eight decimal ones. -/
theorem ten_zpow_le_two_zpow (hpos : 0 ≤ p → 10 * p ≤ 3 * q) (hneg : p ≤ 0 → 93 * p ≤ 28 * q) :
    (10 : ℚ) ^ p ≤ 2 ^ q := by
  rcases le_total 0 p with hp | hp
  · exact ten_zpow_le_of_zpow_le (by decide) (zpow_le_zpow_left₀ hp (by norm_num) (by norm_num)) (hpos hp)
  · refine ten_zpow_le_of_zpow_le (by decide : 28 ≠ 0) (b := 93) ?_ (hneg hp)
    rw [← neg_neg p, zpow_neg, zpow_neg (2 ^ 93 : ℚ)]
    exact inv_anti₀ (by positivity) (zpow_le_zpow_left₀ (by omega) (by norm_num) (by norm_num))

end

namespace Decimal

/-- The number that the decimal writes. -/
def value (d : Decimal) : ℚ := d.digits * 10 ^ d.exponent

end Decimal

namespace Double

/-! ## Rounding to the nearest integer -/

/-- What is nearest to the quotient; of two that are equally near, the even one. -/
theorem roundHalfEven_eq {n d k : ℕ} (hd : 0 < d) (hlow : 2 * (k * d) ≤ 2 * n + d) (hhigh : 2 * n ≤ 2 * (k * d) + d)
    (hodd : k % 2 = 1 → 2 * (k * d) < 2 * n + d ∧ 2 * n < 2 * (k * d) + d) : roundHalfEven n d = k := by
  have hdivision : d * (n / d) + n % d = n := Nat.div_add_mod n d
  have hremainder : n % d < d := Nat.mod_lt n hd
  unfold roundHalfEven
  generalize n / d = quotient at *
  generalize n % d = remainder at *
  subst hdivision
  -- what is nearest is the quotient or the number above it
  have hge : quotient ≤ k := by
    by_contra hlt
    have hmul : (k + 1) * d ≤ quotient * d := Nat.mul_le_mul_right d (by omega)
    rw [Nat.mul_comm quotient d] at hmul
    have hexpand : (k + 1) * d = k * d + d := by ring
    omega
  have hle : k ≤ quotient + 1 := by
    by_contra hlt
    have hmul : (quotient + 2) * d ≤ k * d := Nat.mul_le_mul_right d (by omega)
    have hexpand : (quotient + 2) * d = d * quotient + 2 * d := by ring
    omega
  obtain rfl | rfl : k = quotient ∨ k = quotient + 1 := by omega
  · rw [Nat.mul_comm k d] at hlow hhigh hodd
    simp only
    split_ifs <;> omega
  · have hexpand : (quotient + 1) * d = d * quotient + d := by ring
    rw [hexpand] at hlow hhigh hodd
    simp only
    split_ifs <;> omega

/-! ## The scale of a ratio -/

section

variable {n d : ℕ}

theorem ratio_lt (hd : 0 < d) : (n / d : ℚ) < 2 ^ ((n.log2 : ℤ) - d.log2 + 1) := by
  have hn : (n : ℚ) < 2 ^ (n.log2 + 1) := by exact_mod_cast Nat.lt_log2_self
  have hd' : (2 : ℚ) ^ d.log2 ≤ d := by exact_mod_cast Nat.log2_self_le (by omega)
  have hpos : (0 : ℚ) < d := by exact_mod_cast hd
  have hexponent : (n.log2 : ℤ) - d.log2 + 1 = (n.log2 + 1 : ℕ) - (d.log2 : ℕ) := by push_cast; ring
  rw [hexponent, zpow_sub₀ two_ne_zero, zpow_natCast, zpow_natCast]
  gcongr

theorem lt_ratio (hn : 0 < n) (hd : 0 < d) : 2 ^ ((n.log2 : ℤ) - d.log2 - 1) < (n / d : ℚ) := by
  have hn' : (2 : ℚ) ^ n.log2 ≤ n := by exact_mod_cast Nat.log2_self_le (by omega)
  have hd' : (d : ℚ) < 2 ^ (d.log2 + 1) := by exact_mod_cast Nat.lt_log2_self
  have hpos : (0 : ℚ) < d := by exact_mod_cast hd
  have hexponent : (n.log2 : ℤ) - d.log2 - 1 = (n.log2 : ℕ) - (d.log2 + 1 : ℕ) := by push_cast; ring
  rw [hexponent, zpow_sub₀ two_ne_zero, zpow_natCast, zpow_natCast]
  calc (2 : ℚ) ^ n.log2 / 2 ^ (d.log2 + 1) < 2 ^ n.log2 / d := by gcongr
    _ ≤ n / d := by gcongr

/-- Shifting the numerator or the denominator multiplies by a power of two. -/
theorem shifted_ratio (hd : 0 < d) (scale : ℤ) :
    ((n <<< (-scale).toNat : ℕ) / (d <<< scale.toNat : ℕ) : ℚ) = n / d / 2 ^ scale := by
  have hpos : (0 : ℚ) < d := by exact_mod_cast hd
  rw [Nat.shiftLeft_eq, Nat.shiftLeft_eq, two_zpow_eq_div]
  push_cast
  field_simp

theorem scaleOf_spec (hn : 0 < n) (hd : 0 < d) :
    (n / d : ℚ) < 2 ^ 53 * 2 ^ scaleOf n d ∧
      (scaleOf n d = -1074 ∨ -1074 < scaleOf n d ∧ 2 ^ 52 * 2 ^ scaleOf n d ≤ (n / d : ℚ)) := by
  have hhigh := ratio_lt (n := n) hd
  have hlow := lt_ratio hn hd
  have hshort (guess : ℤ) : n <<< (-guess).toNat < (d <<< guess.toNat) * exponentWeight ↔
      (n / d : ℚ) < 2 ^ 52 * 2 ^ guess := by
    have hpos : (0 : ℚ) < (d <<< guess.toNat : ℕ) := by
      rw [Nat.shiftLeft_eq]
      positivity
    have hratio := shifted_ratio (n := n) hd guess
    rw [div_eq_iff hpos.ne'] at hratio
    rw [← Nat.cast_lt (α := ℚ), Nat.cast_mul, hratio, mul_comm, mul_lt_mul_iff_right₀ hpos,
      div_lt_iff₀ (by positivity)]
    norm_num [exponentWeight]
  unfold scaleOf
  generalize hguess : (n.log2 : ℤ) - d.log2 - 52 = guess
  have hupper : (n.log2 : ℤ) - d.log2 + 1 = guess + 53 := by omega
  have hlower : (n.log2 : ℤ) - d.log2 - 1 = guess + 51 := by omega
  rw [hupper, zpow_add₀ two_ne_zero] at hhigh
  rw [hlower, zpow_add₀ two_ne_zero] at hlow
  simp only [hshort]
  -- without the bound on the scale, the mantissa has fifty-three bits
  have hexact : ∃ scale, (if (n / d : ℚ) < 2 ^ 52 * 2 ^ guess then guess - 1 else guess) = scale ∧
      2 ^ 52 * 2 ^ scale ≤ (n / d : ℚ) ∧ (n / d : ℚ) < 2 ^ 53 * 2 ^ scale := by
    split
    · next hlt =>
      refine ⟨guess - 1, rfl, ?_, ?_⟩ <;> rw [zpow_sub₀ two_ne_zero] <;> norm_num at hlt hlow ⊢ <;> linarith
    · next hge =>
      refine ⟨guess, rfl, not_lt.mp hge, ?_⟩
      norm_num at hhigh ⊢
      linarith
  obtain ⟨scale, hscale, hge, hlt⟩ := hexact
  rw [hscale]
  rcases le_or_gt scale (-1074) with hle | hgt
  · rw [max_eq_left hle]
    have hpow : (2 : ℚ) ^ scale ≤ 2 ^ (-1074 : ℤ) := zpow_le_zpow_right₀ one_le_two hle
    exact ⟨by linarith, .inl rfl⟩
  · rw [max_eq_right hgt.le]
    exact ⟨hlt, .inr ⟨hgt, hge⟩⟩

end

/-! ## Rounding intervals -/

namespace RoundingInterval

/-- A mantissa and a scale that a double can have. -/
structure Valid (i : RoundingInterval) : Prop where
  mantissa : i.mantissa < 2 ^ 53
  least : -1074 ≤ i.scale
  greatest : i.scale ≤ 971
  leading : i.scale = -1074 ∨ 2 ^ 52 ≤ i.mantissa

/-- The number lies in the interval. -/
def Holds (i : RoundingInterval) (x : ℚ) : Prop :=
  if i.mantissa % 2 = 0 then i.lower * 2 ^ (i.scale - 2) ≤ x ∧ x ≤ i.upper * 2 ^ (i.scale - 2)
  else i.lower * 2 ^ (i.scale - 2) < x ∧ x < i.upper * 2 ^ (i.scale - 2)

variable {i : RoundingInterval} {x : ℚ}

/-- The interval reaches half a unit of the mantissa to both sides. -/
theorem Holds.bounds (h : i.Holds x) (hm : 0 < i.mantissa) :
    ((i.mantissa - 1 / 2) * 2 ^ i.scale ≤ x ∧ x ≤ (i.mantissa + 1 / 2) * 2 ^ i.scale) ∧
      (i.mantissa % 2 = 1 → (i.mantissa - 1 / 2) * 2 ^ i.scale < x ∧ x < (i.mantissa + 1 / 2) * 2 ^ i.scale) := by
  have hpos : (0 : ℚ) < 2 ^ i.scale := by positivity
  have hunit : (2 : ℚ) ^ (i.scale - 2) = 2 ^ i.scale / 4 := by
    rw [zpow_sub₀ two_ne_zero]
    norm_num
  -- at a power of two the interval reaches less far down, which does no harm
  have hlower : (4 * i.mantissa - 2 : ℚ) ≤ i.lower := by
    have hnat : 4 * i.mantissa ≤ i.lower + 2 := by
      unfold lower
      split <;> omega
    have hcast : (4 * i.mantissa : ℚ) ≤ i.lower + 2 := by exact_mod_cast hnat
    linarith
  have hupper : (i.upper : ℚ) = 4 * i.mantissa + 2 := by
    rw [upper]
    push_cast
    ring
  have hleft : (i.mantissa - 1 / 2 : ℚ) * 2 ^ i.scale ≤ i.lower * (2 ^ i.scale / 4) := by nlinarith
  have hright : (i.upper : ℚ) * (2 ^ i.scale / 4) = (i.mantissa + 1 / 2) * 2 ^ i.scale := by
    rw [hupper]
    ring
  unfold Holds at h
  rw [hunit, hright] at h
  split at h
  · exact ⟨⟨hleft.trans h.1, h.2⟩, by omega⟩
  · exact ⟨⟨hleft.trans h.1.le, h.2.le⟩, fun _ => ⟨hleft.trans_lt h.1, h.2⟩⟩

/-- Where the doubles get denser, the interval reaches only a quarter of a
    unit down. -/
theorem Holds.dense (h : i.Holds x) (hm : i.mantissa = 2 ^ 52) (hs : -1074 < i.scale) :
    (2 ^ 52 - 1 / 4) * 2 ^ i.scale ≤ x := by
  have hunit : (2 : ℚ) ^ (i.scale - 2) = 2 ^ i.scale / 4 := by
    rw [zpow_sub₀ two_ne_zero]
    norm_num
  have hlower : (i.lower : ℚ) = 4 * 2 ^ 52 - 1 := by
    have hnat : i.lower = 4 * 2 ^ 52 - 1 := by
      unfold lower
      rw [if_pos ⟨by rw [hm]; rfl, hs⟩, hm]
    rw [hnat]
    norm_num
  unfold Holds at h
  rw [if_pos (by rw [hm]; norm_num), hunit, hlower] at h
  linarith [h.1]

/-- A number of the interval that has a smaller scale lies just below the
    place where the doubles get denser. -/
theorem Holds.finer (h : i.Holds x) (hi : i.Valid) {scale : ℤ} (hleast : -1074 ≤ scale) (hscale : scale < i.scale)
    (hlt : x < 2 ^ 53 * 2 ^ scale) :
    i.mantissa = 2 ^ 52 ∧ scale = i.scale - 1 ∧ (2 ^ 53 - 1 / 2) * 2 ^ scale ≤ x := by
  have hleading := hi.leading.resolve_left (by omega)
  obtain ⟨⟨hlow, -⟩, -⟩ := h.bounds (by omega)
  have hpos : (0 : ℚ) < 2 ^ i.scale := by positivity
  have hshift (k : ℤ) (hk : scale ≤ i.scale - k) : (2 : ℚ) ^ scale ≤ 2 ^ i.scale / 2 ^ k := by
    rw [← zpow_sub₀ two_ne_zero]
    exact zpow_le_zpow_right₀ one_le_two hk
  -- with a larger mantissa even the lower end would be `2 ^ 53` of the finer units, or more
  have hmantissa : i.mantissa = 2 ^ 52 := by
    have hhalf := hshift 1 (by omega)
    have hle : (i.mantissa : ℚ) < 2 ^ 52 + 1 := by
      by_contra hge
      nlinarith [not_lt.mp hge]
    have hnat : i.mantissa < 2 ^ 52 + 1 := by exact_mod_cast hle
    omega
  have hdense := h.dense hmantissa (by omega)
  -- two scales down, `2 ^ 53` units come to half of what the interval starts from
  have hnext : scale = i.scale - 1 := by
    by_contra hne
    have hquarter := hshift 2 (by omega)
    norm_num at hquarter hlt hdense
    linarith
  refine ⟨hmantissa, hnext, ?_⟩
  rw [hnext, zpow_sub_one₀ two_ne_zero]
  norm_num at hdense ⊢
  linarith

end RoundingInterval

open RoundingInterval

theorem roundHalfEven_of_ratio {n d k : ℕ} (hd : 0 < d) (h : (k - 1 / 2 : ℚ) ≤ n / d ∧ (n / d : ℚ) ≤ k + 1 / 2)
    (hodd : k % 2 = 1 → (k - 1 / 2 : ℚ) < n / d ∧ (n / d : ℚ) < k + 1 / 2) : roundHalfEven n d = k := by
  have hpos : (0 : ℚ) < d := by exact_mod_cast hd
  rw [le_div_iff₀ hpos, div_le_iff₀ hpos] at h
  rw [lt_div_iff₀ hpos, div_lt_iff₀ hpos] at hodd
  refine roundHalfEven_eq hd ?_ ?_ fun hk => ⟨?_, ?_⟩
  · have hcast : (2 * (k * d) : ℚ) ≤ 2 * n + d := by linarith [h.1]
    exact_mod_cast hcast
  · have hcast : (2 * n : ℚ) ≤ 2 * (k * d) + d := by linarith [h.2]
    exact_mod_cast hcast
  · have hcast : (2 * (k * d) : ℚ) < 2 * n + d := by linarith [(hodd hk).1]
    exact_mod_cast hcast
  · have hcast : (2 * n : ℚ) < 2 * (k * d) + d := by linarith [(hodd hk).2]
    exact_mod_cast hcast

/-- A ratio that lies in the interval of a double is read as this double. -/
theorem ofRatio_of_holds {i : RoundingInterval} (hi : i.Valid) (hm : 0 < i.mantissa) {n d : ℕ} (hn : 0 < n)
    (hd : 0 < d) (h : i.Holds (n / d)) (negative : Bool) :
    ofRatio negative n d = withSign negative ((i.scale + 1074).toNat * exponentWeight + i.mantissa) := by
  obtain ⟨hlt, hleast⟩ := scaleOf_spec hn hd
  obtain ⟨⟨hlow, hhigh⟩, hodd⟩ := h.bounds hm
  have hmax : (i.scale + 1074).toNat * exponentWeight + i.mantissa < 2047 * exponentWeight := by
    have hmantissa := hi.mantissa
    have hscale : (i.scale + 1074).toNat ≤ 2045 := by
      have := hi.greatest
      omega
    have hmul := Nat.mul_le_mul_right exponentWeight hscale
    simp only [exponentWeight] at hmul ⊢
    omega
  -- it is enough to find the bits below the sign
  suffices hbits : (scaleOf n d + 1074).toNat * exponentWeight +
      roundHalfEven (n <<< (-scaleOf n d).toNat) (d <<< (scaleOf n d).toNat) =
        (i.scale + 1074).toNat * exponentWeight + i.mantissa by
    rw [ofRatio, if_neg (by omega)]
    simp only [hbits, min_eq_left hmax.le]
  have hshifted : 0 < d <<< (scaleOf n d).toNat := by
    rw [Nat.shiftLeft_eq]
    positivity
  have hpos : (0 : ℚ) < 2 ^ i.scale := by positivity
  have hratio := shifted_ratio (n := n) hd (scaleOf n d)
  have hmantissa : (i.mantissa : ℚ) + 1 ≤ 2 ^ 53 := by exact_mod_cast hi.mantissa
  rcases lt_trichotomy (scaleOf n d) i.scale with hscale | hscale | hscale
  · -- only just below a power of two: the mantissa is rounded up to it
    have hge : -1074 ≤ scaleOf n d := by omega
    obtain ⟨hpower, hnext, hbelow⟩ := h.finer hi hge hscale hlt
    have hpos' : (0 : ℚ) < 2 ^ scaleOf n d := by positivity
    have hsucc : (i.scale + 1074).toNat = (scaleOf n d + 1074).toNat + 1 := by omega
    have hround : roundHalfEven (n <<< (-scaleOf n d).toNat) (d <<< (scaleOf n d).toNat) = 2 ^ 53 := by
      refine roundHalfEven_of_ratio hshifted ?_ (by norm_num)
      rw [hratio, le_div_iff₀ hpos', div_le_iff₀ hpos']
      norm_num at hbelow hlt ⊢
      exact ⟨hbelow, by linarith⟩
    rw [hround, hpower, hsucc, add_one_mul, add_assoc]
    rfl
  · rw [hscale]
    rw [hscale] at hratio hshifted
    rw [roundHalfEven_of_ratio hshifted]
    · rw [hratio, le_div_iff₀ hpos, div_le_iff₀ hpos]
      exact ⟨hlow, hhigh⟩
    · rw [hratio, lt_div_iff₀ hpos, div_lt_iff₀ hpos]
      exact hodd
  · -- the mantissa would be too large
    obtain ⟨-, hge⟩ := hleast.resolve_left (by have := hi.least; omega)
    have hdouble : 2 * (2 : ℚ) ^ i.scale ≤ 2 ^ scaleOf n d := by
      have hpow : (2 : ℚ) ^ (i.scale + 1) ≤ 2 ^ scaleOf n d := zpow_le_zpow_right₀ one_le_two (by omega)
      rwa [zpow_add_one₀ two_ne_zero, mul_comm] at hpow
    nlinarith

/-! ## Reading a decimal -/

/-- The double nearest to a decimal. -/
def ofDecimal (negative : Bool) (d : Decimal) : Double :=
  ofRatio negative (d.digits * 10 ^ d.exponent.toNat) (10 ^ (-d.exponent).toNat)

/-- A decimal in the interval of a double is read as this double. -/
theorem ofDecimal_of_holds {i : RoundingInterval} (hi : i.Valid) (hm : 0 < i.mantissa) {d : Decimal} (h : i.Holds d.value)
    (negative : Bool) :
    ofDecimal negative d = withSign negative ((i.scale + 1074).toNat * exponentWeight + i.mantissa) := by
  obtain ⟨⟨hlow, -⟩, -⟩ := h.bounds hm
  have hdigits : 0 < d.digits := by
    rw [Nat.pos_iff_ne_zero]
    intro hzero
    have hone : (1 : ℚ) ≤ i.mantissa := by exact_mod_cast hm
    have hscale : (0 : ℚ) < 2 ^ i.scale := by positivity
    rw [Decimal.value, hzero, Nat.cast_zero, zero_mul] at hlow
    nlinarith
  have hratio : ((d.digits * 10 ^ d.exponent.toNat : ℕ) / (10 ^ (-d.exponent).toNat : ℕ) : ℚ) = d.value := by
    rw [Decimal.value, ten_zpow_eq_div]
    push_cast
    ring
  exact ofRatio_of_holds hi hm (by positivity) (by positivity) (by rwa [hratio]) negative

end Double

end FlowGraph
