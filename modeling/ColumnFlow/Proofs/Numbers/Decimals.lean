import ColumnFlow.Decimal.Shortest
import ColumnFlow.Proofs.Numbers.Nearest

/-!
# Decimals that read back

Every finite double has a shortest decimal, and rounding that decimal gives the double back:
a decimal that the search finds has been tried, and the exact one is within the range in which
decimals are rounded.
-/

namespace ColumnFlow.Decimal

/-- The number that a decimal stands for. -/
def value (d : Decimal) : ℚ := d.mantissa * 10 ^ d.exponent

/-- Normalizing the digits leaves the value as it is. -/
theorem value_ofScientific (m : Nat) (e : Int) : (ofScientific m e).value = m * 10 ^ e := by
  induction m using Nat.strongRecOn generalizing e with
  | ind m ih =>
    unfold ofScientific
    split
    · rename_i hzero
      simp [value, Decimal.zero, hzero]
    · split
      · rename_i hnonzero hten
        have hwhole : m = m / 10 * 10 := by omega
        have hcast : (m : ℚ) = (m / 10 : Nat) * 10 := by exact_mod_cast hwhole
        rw [ih (m / 10) (by omega), hcast, zpow_add₀ (by norm_num)]
        ring
      · rfl

/-- The exact decimal of a double has its value. -/
theorem value_exact (b : Binary64) : (exact b).value = b.value := by
  unfold exact Binary64.value
  split
  · rename_i hnonneg
    obtain ⟨n, heq⟩ := Int.eq_ofNat_of_zero_le hnonneg
    rw [heq, ofNat, value_ofScientific]
    simp
  · rename_i hnegative
    obtain ⟨n, heq⟩ : ∃ n : Nat, b.exponent = -n := ⟨(-b.exponent).toNat, by omega⟩
    rw [heq, value_ofScientific, neg_neg, Int.toNat_natCast, zpow_neg, zpow_neg, zpow_natCast,
      zpow_natCast]
    have hten : (10 : ℚ) = 5 * 2 := by norm_num
    rw [hten, mul_pow, Nat.pow_eq]
    push_cast
    field_simp

/-! ## The range of doubles -/

/-- Three binary places are less than a decimal one. -/
theorem two_pow_lt : (2 : ℚ) ^ (1074 : Int) < 10 ^ (400 : Int) := by
  calc (2 : ℚ) ^ (1074 : Int) = (2 ^ 3) ^ 358 := by rw [← pow_mul]; rfl
    _ ≤ 10 ^ 358 := by gcongr; norm_num
    _ = 10 ^ (358 : Int) := rfl
    _ < 10 ^ (400 : Int) := zpow_lt_zpow_right₀ (by norm_num) (by norm_num)

/-- No double is as great as the bound from which on decimals are infinite. -/
theorem value_lt {b : Binary64} (hcanonical : b.Canonical) : b.value < 10 ^ (400 : Int) := by
  obtain ⟨_, hgreatest, hlt, _⟩ := hcanonical
  have hsmall : (b.mantissa : ℚ) < 2 ^ (53 : Int) := by exact_mod_cast hlt
  calc b.value < 2 ^ (53 : Int) * 2 ^ b.exponent := by unfold Binary64.value; gcongr
    _ = 2 ^ (53 + b.exponent) := by rw [zpow_add₀ (by norm_num)]
    _ ≤ 2 ^ (1074 : Int) := zpow_le_zpow_right₀ (by norm_num) (by omega)
    _ < 10 ^ (400 : Int) := two_pow_lt

/-- No double but zero is as small as the bound up to which decimals are zero. -/
theorem lt_value {b : Binary64} (hcanonical : b.Canonical) (hpos : 0 < b.mantissa) :
    10 ^ (-400 : Int) < b.value := by
  have hone : (1 : ℚ) ≤ b.mantissa := by exact_mod_cast hpos
  calc (10 : ℚ) ^ (-400 : Int) < 2 ^ (-1074 : Int) := by
        rw [zpow_neg, zpow_neg]
        exact inv_strictAnti₀ (by positivity) two_pow_lt
    _ ≤ 1 * 2 ^ b.exponent := by
      rw [one_mul]
      exact zpow_le_zpow_right₀ (by norm_num) hcanonical.least
    _ ≤ b.value := by unfold Binary64.value; gcongr

/-- A decimal with the value of a double is rounded to it. -/
theorem toFloat_of_value {b : Binary64} {d : Decimal} (hcanonical : b.Canonical)
    (hpos : 0 < b.mantissa) (hexact : d.value = b.value) :
    d.toFloat = Float.ofBits (UInt64.ofNat b.bits) := by
  have hdpos : 0 < d.mantissa := by
    rcases Nat.eq_zero_or_pos d.mantissa with hzero | hdpos
    · have := Binary64.value_pos hpos
      simp [← hexact, value, hzero] at this
    · exact hdpos
  have hone : (1 : ℚ) ≤ d.mantissa := by exact_mod_cast hdpos
  -- The two shortcuts for exponents out of range are not taken: the value is that of a double.
  have hnotLarge : ¬ 400 < d.exponent := by
    intro hlarge
    have : (10 : ℚ) ^ (400 : Int) ≤ d.value := by
      calc (10 : ℚ) ^ (400 : Int) ≤ 1 * 10 ^ d.exponent := by
            rw [one_mul]
            exact zpow_le_zpow_right₀ (by norm_num) hlarge.le
        _ ≤ d.value := by unfold value; gcongr
    exact absurd (value_lt hcanonical) (not_lt.2 (hexact ▸ this))
  have hnotSmall : ¬ d.exponent < -(400 + (d.mantissa.log2 : Int)) := by
    intro hsmall
    have hhigh : (d.mantissa : ℚ) < 2 ^ (d.mantissa.log2 + 1) := by
      exact_mod_cast Nat.lt_log2_self
    have : d.value < 10 ^ (-400 : Int) := by
      calc d.value < 2 ^ (d.mantissa.log2 + 1) * 10 ^ d.exponent := by unfold value; gcongr
        _ ≤ 10 ^ (d.mantissa.log2 + 1) * 10 ^ d.exponent := by gcongr; norm_num
        _ = 10 ^ ((d.mantissa.log2 + 1 : Nat) + d.exponent) := by
          rw [zpow_add₀ (by norm_num), zpow_natCast]
        _ ≤ 10 ^ (-400 : Int) := zpow_le_zpow_right₀ (by norm_num) (by omega)
    exact absurd (lt_value hcanonical hpos) (not_lt.2 (hexact ▸ this.le))
  unfold toFloat
  rw [if_neg hdpos.ne', if_neg hnotLarge, if_neg hnotSmall]
  unfold Binary64.nearest
  split
  · rename_i hnonneg
    obtain ⟨n, heq⟩ := Int.eq_ofNat_of_zero_le hnonneg
    rw [Binary64.nearestBits_of_value hcanonical hpos (by decide)]
    rw [← hexact, value, heq, zpow_natCast, Int.toNat_natCast, Nat.pow_eq]
    push_cast
    rw [div_one]
  · rename_i hnegative
    obtain ⟨n, heq⟩ : ∃ n : Nat, d.exponent = -n := ⟨(-d.exponent).toNat, by omega⟩
    have hden : 0 < Nat.pow 10 (-d.exponent).toNat := Nat.pow_pos (by decide)
    rw [Binary64.nearestBits_of_value hcanonical hpos hden]
    rw [← hexact, value, heq, zpow_neg, zpow_natCast, neg_neg, Int.toNat_natCast, Nat.pow_eq]
    push_cast
    rw [div_eq_mul_inv]

/-! ## Shortest decimals -/

/-- What the search finds has been tried and read back. -/
theorem search_reads_back {tie : Tie} {num den : Nat} {bits : UInt64} {g : Int} {grids : Nat}
    {d : Decimal} (hfound : search tie num den bits g grids = some d) :
    d.toFloat.toBits = bits := by
  induction grids generalizing g with
  | zero => simp [search] at hfound
  | succ grids ih =>
    unfold search at hfound
    split at hfound
    · rename_i hhit
      cases hfound
      simpa using List.find?_some hhit
    · exact ih hfound

/-- The exact decimal of a double is rounded to that double. -/
theorem toFloat_exact {b : Binary64} (hcanonical : b.Canonical) (hpos : 0 < b.mantissa) :
    (exact b).toFloat.toBits = UInt64.ofNat b.bits := by
  have hlt := Binary64.bits_lt hcanonical
  rw [toFloat_of_value hcanonical hpos (value_exact b), toBits_ofBits]
  rw [UInt64.toNat_ofNat']
  unfold signBit
  unfold Binary64.infinityBits Binary64.fractions at *
  omega

theorem bits_eq_zero {b : Binary64} (hcanonical : b.Canonical) (hzero : b.mantissa = 0) :
    b.bits = 0 := by
  rcases hcanonical.leading with hleading | hbottom
  · rw [hzero] at hleading
    exact absurd hleading (by decide)
  · rw [Binary64.bits, hbottom, hzero]
    rfl

/-- The shortest decimal of a finite double rounds to its magnitude. -/
theorem shortest?_reads_back (tie : Tie) {x : Float} (hfinite : x.isFinite) :
    ∃ d, shortest? tie x = some d ∧ d.toFloat.toBits = UInt64.ofNat (magnitude x) := by
  obtain ⟨b, hread, hcanonical, hbits, _⟩ := Binary64.ofFloat?_of_isFinite hfinite
  unfold shortest?
  rw [hread]
  refine ⟨_, rfl, ?_⟩
  dsimp only
  split
  · rename_i hzero
    rw [← hbits, bits_eq_zero hcanonical hzero]
    exact toBits_ofBits (by decide)
  · rename_i hnonzero
    change ((search tie _ _ (UInt64.ofNat (magnitude x)) _ 40).getD (exact b)).toFloat.toBits = _
    cases hfound : search tie (ratio b).1 (ratio b).2 (UInt64.ofNat (magnitude x))
        (gridAbove (ratio b).1 (ratio b).2) 40 with
    | none => rw [Option.getD_none, toFloat_exact hcanonical (by omega), hbits]
    | some d => exact search_reads_back hfound

/-! ## Signs -/

theorem nearestBits_le (num den : Nat) : Binary64.nearestBits num den ≤ Binary64.infinityBits :=
  Nat.min_le_right _ _

/-- A decimal without a sign is never rounded to a negative double. -/
theorem toFloat_bits (d : Decimal) :
    ∃ n ≤ Binary64.infinityBits, d.toFloat = Float.ofBits (UInt64.ofNat n) := by
  unfold toFloat
  split
  · exact ⟨0, by decide, rfl⟩
  · split
    · exact ⟨_, le_refl _, rfl⟩
    · split
      · exact ⟨0, by decide, rfl⟩
      · split
        · exact ⟨_, nearestBits_le _ _, rfl⟩
        · exact ⟨_, nearestBits_le _ _, rfl⟩

/-- Decimals have no sign, so what they are rounded to has none. -/
theorem isNegative_toFloat (d : Decimal) : isNegative d.toFloat = false := by
  obtain ⟨n, hle, heq⟩ := toFloat_bits d
  have hsmall : n < 2 ^ 63 := by
    unfold Binary64.infinityBits Binary64.fractions at hle
    omega
  have hword : (UInt64.ofNat n).toNat = n := by
    rw [UInt64.toNat_ofNat', Nat.mod_eq_of_lt (by omega)]
  have hwhole : n % signBit = n := Nat.mod_eq_of_lt hsmall
  have hsign : n / signBit = 0 := Nat.div_eq_of_lt hsmall
  unfold isNegative
  rw [heq, toBits_ofBits (by rw [hword, hwhole]; exact hle), hword, hsign]
  rfl

end ColumnFlow.Decimal
