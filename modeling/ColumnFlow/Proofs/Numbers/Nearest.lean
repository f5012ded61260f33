import ColumnFlow.Proofs.Numbers.Bits

/-!
# Rounding exact numbers

A ratio that is the exact value of a double is rounded to that double. The proof reads the
ratios as rational numbers, where scaling is multiplication by a power of two.
-/

namespace ColumnFlow.Binary64

/-- The exact value of a double without its sign. -/
def value (b : Binary64) : ℚ := b.mantissa * 2 ^ b.exponent

/-! ## Ratios -/

theorem scale_den_pos {num den : Nat} (k : Int) (hpos : 0 < den) : 0 < (scale num den k).2 := by
  unfold scale
  split
  · exact hpos
  · exact Nat.mul_pos hpos (Nat.pow_pos (by decide))

/-- Scaling multiplies a ratio by a power of two. -/
theorem scale_ratio (num den : Nat) (k : Int) :
    ((scale num den k).1 : ℚ) / (scale num den k).2 = num / den * 2 ^ k := by
  unfold scale
  split
  · rename_i hnonneg
    lift k to Nat using hnonneg
    simp only [Int.toNat_natCast, zpow_natCast, Nat.pow_eq]
    push_cast
    ring
  · rename_i hnegative
    obtain ⟨n, rfl⟩ : ∃ n : Nat, k = -n := ⟨(-k).toNat, by omega⟩
    simp only [neg_neg, Int.toNat_natCast, zpow_neg, zpow_natCast, Nat.pow_eq]
    push_cast
    field_simp

/-- The logarithms of numerator and denominator bound that of the ratio. -/
theorem log_ratio_bounds {num den : Nat} (hn : 0 < num) (hd : 0 < den) :
    (num.log2 : Int) - den.log2 - 1 ≤ Int.log 2 ((num : ℚ) / den) ∧
      Int.log 2 ((num : ℚ) / den) < (num.log2 : Int) - den.log2 + 1 := by
  have htwo : (2 : ℚ) ≠ 0 := by norm_num
  have hdpos : (0 : ℚ) < den := by exact_mod_cast hd
  have hpos : (0 : ℚ) < (num : ℚ) / den := by positivity
  have hnlow : (2 : ℚ) ^ num.log2 ≤ num := by exact_mod_cast Nat.log2_self_le hn.ne'
  have hnhigh : (num : ℚ) < 2 ^ (num.log2 + 1) := by exact_mod_cast Nat.lt_log2_self
  have hdlow : (2 : ℚ) ^ den.log2 ≤ den := by exact_mod_cast Nat.log2_self_le hd.ne'
  have hdhigh : (den : ℚ) < 2 ^ (den.log2 + 1) := by exact_mod_cast Nat.lt_log2_self
  constructor
  · rw [← Int.zpow_le_iff_le_log (by decide) hpos, le_div_iff₀ hdpos]
    calc ((2 : Nat) : ℚ) ^ ((num.log2 : Int) - den.log2 - 1) * den
        ≤ 2 ^ ((num.log2 : Int) - den.log2 - 1) * 2 ^ (den.log2 + 1) := by push_cast; gcongr
      _ = 2 ^ num.log2 := by
        rw [← zpow_natCast, ← zpow_natCast, ← zpow_add₀ htwo]
        congr 1
        push_cast
        ring
      _ ≤ num := hnlow
  · rw [← Int.lt_zpow_iff_log_lt (by decide) hpos, div_lt_iff₀ hdpos]
    calc (num : ℚ) < 2 ^ (num.log2 + 1) := hnhigh
      _ = 2 ^ ((num.log2 : Int) - den.log2 + 1) * 2 ^ den.log2 := by
        rw [← zpow_natCast, ← zpow_natCast, ← zpow_add₀ htwo]
        congr 1
        push_cast
        ring
      _ ≤ ((2 : Nat) : ℚ) ^ ((num.log2 : Int) - den.log2 + 1) * den := by push_cast; gcongr

/-- The binary exponent of a ratio is its logarithm, rounded down. -/
theorem binaryExponent_eq_log {num den : Nat} (hn : 0 < num) (hd : 0 < den) :
    binaryExponent num den = Int.log 2 ((num : ℚ) / den) := by
  have hpos : (0 : ℚ) < (num : ℚ) / den := by positivity
  obtain ⟨hlow, hhigh⟩ := log_ratio_bounds hn hd
  unfold binaryExponent
  dsimp only
  generalize (num.log2 : Int) - den.log2 = e at *
  have hdpos : (0 : ℚ) < (scale num den (-e)).2 := by exact_mod_cast scale_den_pos (-e) hd
  have htest : (scale num den (-e)).2 ≤ (scale num den (-e)).1 ↔
      e ≤ Int.log 2 ((num : ℚ) / den) := by
    rw [← Int.zpow_le_iff_le_log (by decide) hpos, ← Nat.cast_le (α := ℚ), ← one_le_div hdpos,
      scale_ratio, zpow_neg, ← div_eq_mul_inv, one_le_div (by positivity)]
    rfl
  split
  · rename_i h
    have := htest.1 h
    omega
  · rename_i h
    have := mt htest.2 h
    omega

/-! ## Exact values -/

theorem value_pos {b : Binary64} (hpos : 0 < b.mantissa) : 0 < b.value := by
  have : (0 : ℚ) < b.mantissa := by exact_mod_cast hpos
  unfold value
  positivity

/-- The logarithm of an exact value is that of its mantissa, shifted by its exponent. -/
theorem log_value {b : Binary64} (hpos : 0 < b.mantissa) :
    Int.log 2 b.value = b.mantissa.log2 + b.exponent := by
  have htwo : (2 : ℚ) ≠ 0 := by norm_num
  have hlow : (2 : ℚ) ^ b.mantissa.log2 ≤ b.mantissa := by
    exact_mod_cast Nat.log2_self_le hpos.ne'
  have hhigh : (b.mantissa : ℚ) < 2 ^ (b.mantissa.log2 + 1) := by
    exact_mod_cast Nat.lt_log2_self
  refine le_antisymm (Int.le_of_lt_add_one ?_) ?_
  · rw [← Int.lt_zpow_iff_log_lt (by decide) (value_pos hpos)]
    calc b.value < 2 ^ (b.mantissa.log2 + 1) * 2 ^ b.exponent := by unfold value; gcongr
      _ = ((2 : Nat) : ℚ) ^ ((b.mantissa.log2 : Int) + b.exponent + 1) := by
        rw [← zpow_natCast, ← zpow_add₀ htwo]
        push_cast
        congr 1
        ring
  · rw [← Int.zpow_le_iff_le_log (by decide) (value_pos hpos)]
    calc ((2 : Nat) : ℚ) ^ ((b.mantissa.log2 : Int) + b.exponent)
        = 2 ^ b.mantissa.log2 * 2 ^ b.exponent := by
          rw [← zpow_natCast, ← zpow_add₀ htwo]
          push_cast
          rfl
      _ ≤ b.value := by unfold value; gcongr

/-- The last place that rounding finds for a double is its own. -/
theorem lastPlace_eq {b : Binary64} (hcanonical : b.Canonical) (hpos : 0 < b.mantissa) :
    max (Int.log 2 b.value - 52) (-1074) = b.exponent := by
  have hleast := hcanonical.least
  have hhigh : b.mantissa.log2 < 53 := (Nat.log2_lt hpos.ne').2 hcanonical.mantissa_lt
  rw [log_value hpos]
  rcases hcanonical.leading with hleading | hbottom
  · have hlow : 52 ≤ b.mantissa.log2 := (Nat.le_log2 hpos.ne').2 hleading
    omega
  · omega

/-- A whole number is rounded to itself. -/
theorem roundHalfEven_mul {m d : Nat} (hpos : 0 < d) : roundHalfEven (m * d) d = m := by
  unfold roundHalfEven
  rw [Nat.mul_mod_left, Nat.mul_div_cancel m hpos]
  exact if_pos (by simpa using hpos)

theorem bits_lt {b : Binary64} (hcanonical : b.Canonical) : b.bits < infinityBits := by
  obtain ⟨hleast, hgreatest, hlt, _⟩ := hcanonical
  unfold bits infinityBits
  unfold fractions at *
  omega

/-- A ratio that is the value of a double rounds to it. -/
theorem nearestBits_of_value {b : Binary64} {num den : Nat} (hcanonical : b.Canonical)
    (hpos : 0 < b.mantissa) (hd : 0 < den) (hexact : (num : ℚ) / den = b.value) :
    nearestBits num den = b.bits := by
  have hn : 0 < num := by
    rcases Nat.eq_zero_or_pos num with rfl | hn
    · have := value_pos hpos
      simp [← hexact] at this
    · exact hn
  have hplace : max (binaryExponent num den - 52) (-1074) = b.exponent := by
    rw [binaryExponent_eq_log hn hd, hexact, lastPlace_eq hcanonical hpos]
  unfold nearestBits
  dsimp only
  rw [hplace]
  have hdpos : 0 < (scale num den (-b.exponent)).2 := scale_den_pos (-b.exponent) hd
  have hratio := scale_ratio num den (-b.exponent)
  generalize scale num den (-b.exponent) = scaled at *
  have hwhole : scaled.1 = b.mantissa * scaled.2 := by
    have hdpos : (0 : ℚ) < scaled.2 := by exact_mod_cast hdpos
    rw [hexact, value, mul_assoc, ← zpow_add₀ (by norm_num), add_neg_cancel, zpow_zero, mul_one,
      div_eq_iff hdpos.ne'] at hratio
    exact_mod_cast hratio
  rw [hwhole, roundHalfEven_mul hdpos]
  exact Nat.min_eq_left (bits_lt hcanonical).le

end ColumnFlow.Binary64
