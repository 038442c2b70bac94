import FlowGraph.Proofs.Rounding

/-! # Shortest decimals

    The shortest decimal of a double is read as this double.

    The places are tried from the coarsest down. A point of the grid that is
    taken lies in the interval of the double (`holds_of_onGrid`); a grid whose
    step is no longer than a unit of the interval always has one
    (`exists_onGrid`), and the last place tried is that fine.
-/

namespace FlowGraph

namespace Decimal

theorem value_dropZeros (count : Nat) (d : Decimal) : (dropZeros count d).value = d.value := by
  induction count generalizing d with
  | zero => rfl
  | succ count ih =>
    rw [dropZeros]
    split
    · next hzero =>
      rw [ih]
      have hdigits : (d.digits : ℚ) = (d.digits / 10 : ℕ) * 10 := by
        exact_mod_cast (Nat.div_mul_cancel (Nat.dvd_of_mod_eq_zero hzero)).symm
      simp only [value]
      rw [hdigits, zpow_add₀ (by norm_num : (10 : ℚ) ≠ 0)]
      ring
    · rfl

theorem value_normalize (d : Decimal) : d.normalize.value = d.value := by
  unfold normalize
  split
  · next hzero => simp [value, hzero]
  · exact value_dropZeros _ d

end Decimal

namespace Double

/-! ## Decimals in the interval -/

namespace RoundingInterval

variable {i : RoundingInterval}

theorem contains_iff (i : RoundingInterval) (a : ℕ) {b : ℕ} (hb : 0 < b) :
    i.contains a b = true ↔ i.Holds (a / b * 2 ^ (i.scale - 2)) := by
  have hpos : (0 : ℚ) < b := by exact_mod_cast hb
  have hunit : (0 : ℚ) < 2 ^ (i.scale - 2) := by positivity
  have hle (k : ℕ) : k * b ≤ a ↔ (k : ℚ) ≤ a / b := by
    rw [le_div_iff₀ hpos]
    exact_mod_cast Iff.rfl
  have hge (k : ℕ) : a ≤ k * b ↔ (a / b : ℚ) ≤ k := by
    rw [div_le_iff₀ hpos]
    exact_mod_cast Iff.rfl
  have hlt (k : ℕ) : k * b < a ↔ (k : ℚ) < a / b := by
    rw [lt_div_iff₀ hpos]
    exact_mod_cast Iff.rfl
  have hgt (k : ℕ) : a < k * b ↔ (a / b : ℚ) < k := by
    rw [div_lt_iff₀ hpos]
    exact_mod_cast Iff.rfl
  unfold contains Holds
  split
  · simp only [Bool.decide_and, Bool.and_eq_true, decide_eq_true_eq, mul_le_mul_iff_left₀ hunit, hle, hge]
  · simp only [Bool.decide_and, Bool.and_eq_true, decide_eq_true_eq, mul_lt_mul_iff_left₀ hunit, hlt, hgt]

/-- One step of the grid, in units of the interval. -/
theorem step_div_unit (i : RoundingInterval) (place : ℤ) :
    ((10 ^ place.toNat <<< (2 - i.scale).toNat : ℕ) / (10 ^ (-place).toNat <<< (i.scale - 2).toNat : ℕ) : ℚ) *
      2 ^ (i.scale - 2) = 10 ^ place := by
  have hneg : -(i.scale - 2) = 2 - i.scale := by ring
  rw [Nat.shiftLeft_eq, Nat.shiftLeft_eq, two_zpow_eq_div, ten_zpow_eq_div, hneg]
  push_cast
  field_simp

theorem unit_pos (i : RoundingInterval) (place : ℤ) : 0 < 10 ^ (-place).toNat <<< (i.scale - 2).toNat := by
  rw [Nat.shiftLeft_eq]
  positivity

theorem contains_grid_iff (i : RoundingInterval) (place : ℤ) (n : ℕ) :
    i.contains (n * 10 ^ place.toNat <<< (2 - i.scale).toNat) (10 ^ (-place).toNat <<< (i.scale - 2).toNat) = true ↔
      i.Holds (n * 10 ^ place) := by
  rw [contains_iff _ _ (i.unit_pos place), ← i.step_div_unit place]
  push_cast
  ring_nf

theorem holds_of_onGrid {tie : Tie} {place : ℤ} {n : ℕ} (h : i.onGrid tie place = some n) :
    i.Holds (n * 10 ^ place) := by
  rw [← contains_grid_iff]
  unfold onGrid at h
  simp only [Nat.pow_eq] at h
  -- which of the two neighbours are in the interval, and only then which of them is nearer
  split at h
  · cases h
  · next hbelow _ =>
    cases h
    exact hbelow
  · next _ habove =>
    cases h
    exact habove
  · next hbelow habove =>
    split_ifs at h
    · cases h
      exact hbelow
    · cases h
      exact habove
    · cases tie <;> cases h
      · exact habove
      · exact hbelow
    · cases tie <;> cases h <;> exact habove

/-- A grid no coarser than the interval has a point in it. -/
theorem exists_onGrid (tie : Tie) {place : ℤ} (hm : 0 < i.mantissa) (hfine : (10 : ℚ) ^ place ≤ 2 ^ (i.scale - 2)) :
    ∃ n, i.onGrid tie place = some n := by
  set step := 10 ^ place.toNat <<< (2 - i.scale).toNat with hstep
  set unit := 10 ^ (-place).toNat <<< (i.scale - 2).toNat with hunit
  have hstep_pos : 0 < step := by
    rw [hstep, Nat.shiftLeft_eq]
    positivity
  have hunit_pos : (0 : ℚ) < unit := by exact_mod_cast i.unit_pos place
  have hpos : (0 : ℚ) < 2 ^ (i.scale - 2) := by positivity
  have hplace := i.step_div_unit place
  rw [← hstep, ← hunit] at hplace
  -- the neighbour below is less than one step of the grid away
  have hle : (i.value * unit / step : ℕ) * (10 : ℚ) ^ place ≤ i.value * 2 ^ (i.scale - 2) := by
    have hnat : (i.value * unit / step : ℕ) * (step : ℚ) ≤ i.value * unit := by
      exact_mod_cast Nat.div_mul_le_self (i.value * unit) step
    rw [← hplace, ← mul_assoc, ← mul_div_assoc]
    exact mul_le_mul_of_nonneg_right ((div_le_iff₀ hunit_pos).mpr hnat) hpos.le
  have hlt : i.value * (2 : ℚ) ^ (i.scale - 2) < ((i.value * unit / step : ℕ) + 1) * 10 ^ place := by
    have hnat : (i.value * unit : ℚ) < ((i.value * unit / step : ℕ) + 1) * step := by
      exact_mod_cast Nat.lt_mul_of_div_lt (Nat.lt_succ_self (i.value * unit / step)) hstep_pos
    rw [← hplace, ← mul_assoc, ← mul_div_assoc]
    exact mul_lt_mul_of_pos_right ((lt_div_iff₀ hunit_pos).mpr hnat) hpos
  have hbelow : i.contains (i.value * unit / step * step) unit = true := by
    rw [hstep, hunit, contains_grid_iff, ← hstep, ← hunit]
    have hlower : (i.lower : ℚ) + 1 ≤ i.value := by
      have hnat : i.lower + 1 ≤ i.value := by
        unfold lower value
        split <;> omega
      exact_mod_cast hnat
    have hupper : (i.upper : ℚ) = i.value + 2 := by
      rw [upper, value]
      push_cast
      ring
    have hlow : (i.lower : ℚ) * 2 ^ (i.scale - 2) < (i.value * unit / step : ℕ) * 10 ^ place := by nlinarith
    have hhigh : (i.value * unit / step : ℕ) * (10 : ℚ) ^ place < i.upper * 2 ^ (i.scale - 2) := by nlinarith
    unfold Holds
    split
    · exact ⟨hlow.le, hhigh.le⟩
    · exact ⟨hlow, hhigh⟩
  unfold onGrid
  simp only [Nat.pow_eq, ← hstep, ← hunit, hbelow]
  split
  · next h _ => cases h
  · exact ⟨_, rfl⟩
  · exact ⟨_, rfl⟩
  · split_ifs
    · exact ⟨_, rfl⟩
    · exact ⟨_, rfl⟩
    · cases tie <;> exact ⟨_, rfl⟩
    · cases tie <;> exact ⟨_, rfl⟩

/-- A search that reaches a fine enough place finds a decimal of the interval. -/
theorem holds_search (tie : Tie) (hm : 0 < i.mantissa) (count : ℕ) (place : ℤ)
    (hfine : (10 : ℚ) ^ (place - count) ≤ 2 ^ (i.scale - 2)) : i.Holds (i.search tie count place).value := by
  induction count generalizing place with
  | zero =>
    obtain ⟨n, hn⟩ := i.exists_onGrid tie hm (by simpa using hfine)
    rw [search, hn]
    exact holds_of_onGrid hn
  | succ count ih =>
    rw [search]
    split
    · next n hn => exact holds_of_onGrid hn
    · refine ih (place - 1) ?_
      have hplace : place - 1 - count = place - (count + 1 : ℕ) := by
        push_cast
        ring
      rwa [hplace]

end RoundingInterval

theorem holds_shortest (tie : Tie) {i : RoundingInterval} (hi : i.Valid) (hm : 0 < i.mantissa) :
    i.Holds (shortest tie i.mantissa i.scale).value := by
  rw [shortest, if_neg (by omega)]
  simp only
  rw [Decimal.value_normalize]
  refine RoundingInterval.holds_search tie hm 20 _ (ten_zpow_le_two_zpow ?_ ?_)
  all_goals
    have hlog : i.mantissa.log2 < 53 := (Nat.log2_lt (by omega)).mpr hi.mantissa
    have hleast := hi.least
    have hgreatest := hi.greatest
    unfold RoundingInterval.firstPlace
    push_cast
    intro hp
    omega

/-! ## The bits of a double -/

section

variable {x : Double} {mantissa : ℕ} {scale : ℤ}

theorem valid_of_magnitude (h : x.magnitude = .finite mantissa scale) : RoundingInterval.Valid ⟨mantissa, scale⟩ := by
  have hexponent : x.exponentField < 2048 := Nat.mod_lt _ (by decide)
  have hfraction : x.fractionField < exponentWeight := Nat.mod_lt _ (by decide)
  unfold exponentWeight at hfraction
  unfold magnitude at h
  split_ifs at h with hmax hinfinite hzero
  · cases h
    exact ⟨by simp only; omega, by simp, by simp, .inl rfl⟩
  · cases h
    unfold exponentWeight
    exact ⟨by simp only; omega, by simp only; omega, by simp only; omega, .inr (by simp only; omega)⟩

/-- The bits of a finite double, from its sign, mantissa and scale. -/
theorem withSign_of_magnitude (h : x.magnitude = .finite mantissa scale) :
    withSign x.isNegative ((scale + 1074).toNat * exponentWeight + mantissa) = x := by
  have hbelow : (scale + 1074).toNat * exponentWeight + mantissa = x.bits.toNat % signWeight := by
    have hbits : x.bits.toNat < 2 ^ 64 := x.bits.toNat_lt
    unfold magnitude exponentField fractionField exponentWeight at h
    unfold exponentWeight signWeight
    split_ifs at h with hmax hinfinite hzero
    · cases h
      omega
    · cases h
      omega
  rw [withSign, hbelow]
  by_cases hnegative : signWeight ≤ x.bits.toNat
  · have hsign : signWeight + x.bits.toNat % signWeight = x.bits.toNat := by
      have hbits : x.bits.toNat < 2 ^ 64 := x.bits.toNat_lt
      unfold signWeight at *
      omega
    rw [isNegative, decide_eq_true hnegative, if_pos rfl, hsign, UInt64.ofNat_toNat]
  · rw [isNegative, decide_eq_false hnegative, if_neg Bool.false_ne_true, Nat.mod_eq_of_lt (by omega), UInt64.ofNat_toNat]

end

/-- The shortest decimal of a double is read as this double, the sign of a
    zero included. -/
theorem ofDecimal_shortest (tie : Tie) {x : Double} {mantissa : ℕ} {scale : ℤ}
    (h : x.magnitude = .finite mantissa scale) :
    ofDecimal x.isNegative (shortest tie mantissa scale) = x := by
  have hvalid := valid_of_magnitude h
  have hsign := withSign_of_magnitude h
  rcases Nat.eq_zero_or_pos mantissa with rfl | hpos
  · obtain rfl : scale = -1074 := hvalid.leading.resolve_right (by simp)
    exact hsign
  · rw [ofDecimal_of_holds hvalid hpos (holds_shortest tie hvalid hpos)]
    exact hsign

end Double
end FlowGraph
