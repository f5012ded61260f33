import ColumnFlow.Decimal.Scaled
import ColumnFlow.Proofs.Numbers.Bits

/-!
# Scaling stays within the doubles

A product or a quotient of numbers is rounded to 53 bits, and its exponent is not much greater than
that of the exact result. So a word of 64 bits divided by powers of ten is a number again, and a
word times one is as it is.
-/

namespace ColumnFlow

open Float.Model (Format UnpackedFloat)
open Float.Model.UnpackedFloat

/-! ## Rounding -/

/-- A number, and no infinity, with an exponent up to a bound. -/
def Below (bound : Int) : UnpackedFloat → Prop
  | .zero _ => True
  | .finite _ _ e _ => e ≤ bound
  | _ => False

/-- What is below a bound is a zero, or a finite number whose exponent is within the bound. -/
theorem Below.cases {bound : Int} {u : UnpackedFloat} (hbelow : Below bound u) :
    (∃ s, u = .zero s) ∨ ∃ s m e hpos, u = .finite s m e hpos ∧ e ≤ bound := by
  cases u with
  | zero s => exact .inl ⟨s, rfl⟩
  | finite s m e hpos => exact .inr ⟨s, m, e, hpos, rfl, hbelow⟩
  | infinity s => exact hbelow.elim
  | notANumber => exact hbelow.elim

theorem Below.mono {a b : Int} {u : UnpackedFloat} (hbelow : Below a u) (hle : a ≤ b) :
    Below b u := by
  rcases hbelow.cases with ⟨s, rfl⟩ | ⟨s, m, e, hpos, rfl, hbounded⟩
  · trivial
  · exact Int.le_trans hbounded hle

theorem log2_le {m n : Nat} (hle : m ≤ n) : m.log2 ≤ n.log2 := by
  rw [Nat.log2_eq_log_two, Nat.log2_eq_log_two]
  exact Nat.log_mono_right hle

theorem log2_succ_le (m : Nat) : (m + 1).log2 ≤ m.log2 + 1 := by
  have hlt : m < 2 ^ (m.log2 + 1) := Nat.lt_log2_self
  have hlt' : m + 1 < 2 ^ (m.log2 + 2) := by
    rw [Nat.pow_succ _ (m.log2 + 1)]
    omega
  exact Nat.le_of_lt_succ ((Nat.log2_lt (Nat.succ_ne_zero m)).2 hlt')

theorem mantissa_shift_le (em : ExtendedMantissa) (k : Nat) :
    (em >>> k).mantissa ≤ em.mantissa := by
  induction k with
  | zero => exact Nat.le_refl _
  | succ k ih => exact Nat.le_trans (Nat.div_le_self _ _) ih

theorem mantissa_of_accuracy (m : Nat) (accuracy : Accuracy) :
    (ExtendedMantissa.ofMantissaAndAccuracy m accuracy).mantissa = m := by
  rcases accuracy with _ | ⟨_ | _ | _⟩ <;> rfl

/-- Rounding adds at most one to a mantissa. -/
theorem roundedMantissa_le (em : ExtendedMantissa) : em.roundedMantissa ≤ em.mantissa + 1 := by
  unfold ExtendedMantissa.roundedMantissa
  rcases em.accuracy with _ | ⟨_ | _ | _⟩ <;> simp only [Accuracy.roundToNearestEven] <;> omega

/-- Shifting to the place of rounding leaves fewer digits and a place that is not far up. -/
theorem shift_le (m : Nat) (e : Int) (accuracy : Accuracy) :
    (shiftToTargetExponent Format.binary64 m e accuracy).1.mantissa ≤ m ∧
      (shiftToTargetExponent Format.binary64 m e accuracy).2 =
        max e (max (m.log2 + e - 52) (-1074)) := by
  have htarget : Format.binary64.targetExponent (Float.Model.totalExponent m e) =
      max (m.log2 + e - 52) (-1074) := by
    change max ((m.log2 : Int) + 1 + e - 53) (-1074) = _
    omega
  unfold shiftToTargetExponent shiftToExponent
  dsimp only
  rw [htarget]
  refine ⟨?_, by omega⟩
  have hle := mantissa_shift_le (ExtendedMantissa.ofMantissaAndAccuracy m accuracy)
    (max ((m.log2 : Int) + e - 52) (-1074) - e).toNat
  rwa [mantissa_of_accuracy] at hle

/-- A number rounded to the format is below the exponent it had, give or take the length of its
mantissa. -/
theorem below_round (s : Sign) (m : Nat) (e : Int) (accuracy : Accuracy) :
    Below (max e (-1074) + 2 * m.log2) (roundWithAccuracy Format.binary64 s m e accuracy) := by
  obtain ⟨hsmall, hplace⟩ := shift_le m e accuracy
  unfold roundWithAccuracy
  generalize shiftToTargetExponent Format.binary64 m e accuracy = first at *
  obtain ⟨em, e₁⟩ := first
  dsimp only at *
  have hrounded := Nat.le_trans (roundedMantissa_le em) (Nat.succ_le_succ hsmall)
  have hlog := Nat.le_trans (log2_le hrounded) (log2_succ_le m)
  obtain ⟨-, hplace'⟩ := shift_le em.roundedMantissa e₁ .exact
  split
  · trivial
  · change (shiftToTargetExponent Format.binary64 em.roundedMantissa e₁ .exact).2 ≤ _
    rw [hplace']
    omega

/-! ## Packing -/

/-- Packed components with an exponent within the bound are a number below it. -/
theorem below_components {bound : Int} {s : Sign} {e : BitVec 11} {m : BitVec 52}
    (hleast : -1074 ≤ bound) (hnumber : e.toNat ≠ 2047) (hle : (e.toNat : Int) - 1075 ≤ bound) :
    Below bound (unpack Format.binary64 (packComponents Format.binary64 s e m)) := by
  have hnotTop : e ≠ -1#11 := fun htop => hnumber (congrArg BitVec.toNat htop)
  rw [unpack_packComponents, if_neg hnotTop]
  split
  · split
    · trivial
    · exact hleast
  · exact hle

/-- A number that is rounded and not too great is a double. -/
theorem below_repack {bound : Int} {u : UnpackedFloat} (hleast : -1074 ≤ bound)
    (hgreatest : bound ≤ 971) (hbelow : Below bound u) :
    Below bound (unpack Format.binary64 (pack Format.binary64 u)) := by
  rcases hbelow.cases with ⟨s, rfl⟩ | ⟨s, m, e, hpos, rfl, hle⟩
  · exact below_components hleast (by decide) (Int.le_trans (by decide) hleast)
  · have hfield : (BitVec.ofNat 11 (e + 1075).toNat).toNat = (e + 1075).toNat := by
      rw [BitVec.toNat_ofNat]
      omega
    rw [pack_finite, if_neg (by omega)]
    split
    · exact below_components hleast (by rw [hfield]; omega) (by rw [hfield]; omega)
    · exact below_components hleast (by decide) (Int.le_trans (by decide) hleast)

/-- A number that is rounded is a double or too great for one. -/
theorem repack_cases {bound : Int} {u : UnpackedFloat} (hbelow : Below bound u) :
    (∃ s, unpack Format.binary64 (pack Format.binary64 u) = .infinity s) ∨
      Below 971 (unpack Format.binary64 (pack Format.binary64 u)) := by
  rcases hbelow.cases with ⟨s, rfl⟩ | ⟨s, m, e, hpos, rfl, hle⟩
  · exact .inr (below_repack (by decide) (Int.le_refl _) trivial)
  · by_cases hsmall : e ≤ 971
    · exact .inr (below_repack (by decide) (Int.le_refl _) hsmall)
    · refine .inl ⟨s, ?_⟩
      rw [pack_finite, if_pos (by omega), packedInfinity, unpack_packComponents]
      rfl

/-! ## Doubles -/

/-- What is below a bound is finite. -/
theorem isFinite_of_below {x : Float} {bound : Int} (hbelow : Below bound (unpacked x)) :
    x.isFinite := by
  change (unpacked x).isFinite = true
  rcases hbelow.cases with ⟨s, hnumber⟩ | ⟨s, m, e, hpos, hnumber, -⟩
  · rw [hnumber]
    rfl
  · rw [hnumber]
    rfl

theorem isInf_of_below {x : Float} {bound : Int} (hbelow : Below bound (unpacked x)) :
    x.isInf = false := by
  change (unpacked x).isInf = false
  rcases hbelow.cases with ⟨s, hnumber⟩ | ⟨s, m, e, hpos, hnumber, -⟩
  · rw [hnumber]
    rfl
  · rw [hnumber]
    rfl

/-- The bits of a number without its sign bound its exponent. -/
theorem below_of_magnitude {x : Float} {bound : Int} (hleast : -1074 ≤ bound)
    (hgreatest : bound ≤ 971) (hlt : (magnitude x : Int) < (bound + 1076) * 2 ^ 52) :
    Below bound (unpacked x) := by
  obtain ⟨s, e, m, hfields, hbits⟩ := exists_fields x
  rw [hbits] at hlt
  rw [hfields]
  exact below_components hleast (by omega) (by omega)

/-- The exponent of a double from one on. -/
theorem unpacked_of_magnitude {x : Float} (hfinite : magnitude x < Binary64.infinityBits)
    (hlarge : 1023 * 2 ^ 52 ≤ magnitude x) :
    ∃ s m e hpos, unpacked x = .finite s m e hpos ∧ -52 ≤ e := by
  obtain ⟨s, e, m, hfields, hbits⟩ := exists_fields x
  have hlt : m.toNat < 2 ^ 52 := m.isLt
  rw [hbits] at hfinite hlarge
  unfold Binary64.infinityBits Binary64.fractions at hfinite
  have hnotTop : e ≠ -1#11 := by
    intro htop
    have : e.toNat = 2047 := congrArg BitVec.toNat htop
    omega
  have hnotLow : e ≠ 0#11 := by
    intro hlow
    have : e.toNat = 0 := congrArg BitVec.toNat hlow
    omega
  rw [hfields, unpack_packComponents, if_neg hnotTop, if_neg hnotLow]
  exact ⟨_, _, _, _, rfl, by omega⟩

/-- A finite double has a mantissa of at most 53 bits. -/
theorem mantissa_lt {x : Float} {s : Sign} {m : Nat} {e : Int} {hpos : 0 < m}
    (hfinite : unpacked x = .finite s m e hpos) : m < 2 ^ 53 := by
  obtain ⟨s', e', m', hfields, -⟩ := exists_fields x
  have hlt : m'.toNat < 2 ^ 52 := m'.isLt
  rw [hfields, unpack_packComponents] at hfinite
  split at hfinite
  · split at hfinite <;> cases hfinite
  · split at hfinite
    · split at hfinite
      · cases hfinite
      · cases hfinite
        omega
    · cases hfinite
      omega

/-! ## Products and quotients -/

variable {x y : Float} {bound : Int} {s : Sign} {m : Nat} {e : Int} {hpos : 0 < m}

theorem log2_le_of_lt {n k : Nat} (hlt : n < 2 ^ (k + 1)) : n.log2 ≤ k := by
  rcases Nat.eq_zero_or_pos n with rfl | hpos
  · exact Nat.zero_le k
  · exact Nat.le_of_lt_succ ((Nat.log2_lt hpos.ne').2 hlt)

/-- The digits of a quotient, taken to the place that 53 bits need. -/
theorem divCore_le {m₁ m₂ : Nat} (hlt : m₁ < 2 ^ 53) (hlt' : m₂ < 2 ^ 53) (e₁ e₂ : Int) :
    (divCore Format.binary64 m₁ e₁ m₂ e₂).1.log2 ≤ 157 ∧
      (divCore Format.binary64 m₁ e₁ m₂ e₂).2.1 ≤ e₁ - e₂ := by
  unfold divCore
  dsimp only
  refine ⟨?_, Int.min_le_left _ _⟩
  have hdigits := log2_le_of_lt hlt'
  have htarget : m₁.log2 + e₁ - m₂.log2 - e₂ - 53 ≤ Format.binary64.targetExponent
      (Float.Model.totalExponent m₁ e₁ - Float.Model.totalExponent m₂ e₂) := by
    change _ ≤ max ((m₁.log2 : Int) + 1 + e₁ - (m₂.log2 + 1 + e₂) - 53) (-1074)
    omega
  generalize Format.binary64.targetExponent _ = t at *
  obtain ⟨k, hshift, hfew⟩ : ∃ k, (e₁ - e₂ - min (e₁ - e₂) t).toNat = k ∧ k ≤ 105 :=
    ⟨_, rfl, by omega⟩
  rw [hshift, Nat.shiftLeft_eq]
  refine log2_le_of_lt (Nat.lt_of_le_of_lt (Nat.div_le_self _ _) ?_)
  calc m₁ * 2 ^ k < 2 ^ 53 * 2 ^ k := Nat.mul_lt_mul_of_pos_right hlt (Nat.two_pow_pos k)
    _ = 2 ^ (53 + k) := (Nat.pow_add 2 53 k).symm
    _ ≤ 2 ^ (157 + 1) := Nat.pow_le_pow_right (by decide) (by omega)

/-- A quotient by a number from one on is not much greater than the dividend. -/
theorem below_div (hbelow : Below bound (unpacked x)) (hleast : -1074 ≤ bound)
    (hgreatest : bound ≤ 605) (hdivisor : unpacked y = .finite s m e hpos) (hlarge : -52 ≤ e) :
    Below (bound + 366) (unpacked (x / y)) := by
  change Below _ (unpack _ (pack _ (div Format.binary64 (unpacked x) (unpacked y))))
  refine below_repack (by omega) (by omega) ?_
  rw [hdivisor]
  rcases hbelow.cases with ⟨s', hdividend⟩ | ⟨s', m', e', hpos', hdividend, hle⟩
  · rw [hdividend]
    trivial
  · obtain ⟨hdigits, hplace⟩ := divCore_le (mantissa_lt hdividend) (mantissa_lt hdivisor) e' e
    rw [hdividend]
    unfold div
    dsimp only
    generalize divCore Format.binary64 m' e' m e = quotient at *
    obtain ⟨q, e₀, accuracy⟩ := quotient
    dsimp only at hdigits hplace ⊢
    exact (below_round _ _ _ _).mono (by omega)

/-- A product is not much greater than the exponents of its factors tell. -/
theorem below_mul {bound' : Int} (hbelow : Below bound (unpacked x))
    (hbelow' : Below bound' (unpacked y)) :
    Below (max (bound + bound') (-1074) + 210)
      (mul Format.binary64 (unpacked x) (unpacked y)) := by
  rcases hbelow.cases with ⟨s, hfactor⟩ | ⟨s, m, e, hpos, hfactor, hle⟩
  · rcases hbelow'.cases with ⟨s', hfactor'⟩ | ⟨s', m', e', hpos', hfactor', hle'⟩
    · rw [hfactor, hfactor']
      trivial
    · rw [hfactor, hfactor']
      trivial
  · rcases hbelow'.cases with ⟨s', hfactor'⟩ | ⟨s', m', e', hpos', hfactor', hle'⟩
    · rw [hfactor, hfactor']
      trivial
    · have hdigits : (m * m').log2 ≤ 105 := by
        refine log2_le_of_lt ?_
        calc m * m' < 2 ^ 53 * 2 ^ 53 :=
              Nat.mul_lt_mul_of_lt_of_le (mantissa_lt hfactor) (mantissa_lt hfactor').le
                (by decide)
          _ = 2 ^ (105 + 1) := rfl
      rw [hfactor, hfactor']
      exact (below_round _ _ _ _).mono (by omega)

/-! ## Scaled words -/

namespace Scaled

/-- A word to which digits are appended stays a word. -/
theorem append_lt {word : Nat} (hlt : word < wordLimit) (cs : List Char) :
    (append word cs).1 < wordLimit := by
  fun_induction append word cs with
  | case1 word => exact hlt
  | case2 word c cs next hfits ih => exact ih hfits
  | case3 word c cs next hfull => exact hlt

theorem word_ofNumeral (n : Numeral) : (ofNumeral n).word < wordLimit :=
  append_lt (append_lt (by decide) _) _

/-- The nearest double has the bits that rounding gives. -/
theorem magnitude_nearest (num den : Nat) :
    magnitude (Binary64.nearest num den) = Binary64.nearestBits num den := by
  have hle : Binary64.nearestBits num den ≤ Binary64.infinityBits := Nat.min_le_right _ _
  have hsmall : Binary64.nearestBits num den < signBit := Nat.lt_of_le_of_lt hle (by decide)
  have hword : (UInt64.ofNat (Binary64.nearestBits num den)).toNat =
      Binary64.nearestBits num den := by
    rw [UInt64.toNat_ofNat', Nat.mod_eq_of_lt (Nat.lt_trans hsmall (by decide))]
  have hwhole : Binary64.nearestBits num den % signBit = Binary64.nearestBits num den :=
    Nat.mod_eq_of_lt hsmall
  unfold magnitude Binary64.nearest
  rw [toBits_ofBits (by rw [hword, hwhole]; exact hle), hword, hwhole]

/-- The powers of ten that are doubles. -/
theorem tenTo_bits : ∀ k < 309, 1023 * 2 ^ 52 ≤ Binary64.nearestBits (Nat.pow 10 k) 1 ∧
    Binary64.nearestBits (Nat.pow 10 k) 1 < Binary64.infinityBits := by
  decide +kernel

/-- A power of ten in the table is finite, with an exponent of at least -52. -/
theorem unpacked_tenTo {k : Nat} (hle : k ≤ greatestPower) :
    ∃ s m e hpos, unpacked (tenTo k) = .finite s m e hpos ∧ -52 ≤ e := by
  obtain ⟨hlarge, hfinite⟩ := tenTo_bits k (Nat.lt_succ_of_le hle)
  exact unpacked_of_magnitude (by rwa [tenTo, magnitude_nearest])
    (by rwa [tenTo, magnitude_nearest])

theorem roundHalfEven_le (num den : Nat) : Binary64.roundHalfEven num den ≤ num / den + 1 := by
  unfold Binary64.roundHalfEven
  dsimp only
  split
  · omega
  · split <;> omega

/-- The binary exponent of a word is the length of the word, or one less. -/
theorem binaryExponent_bounds (word : Nat) :
    (word.log2 : Int) - 1 ≤ Binary64.binaryExponent word 1 ∧
      Binary64.binaryExponent word 1 ≤ word.log2 := by
  have hone : Nat.log2 1 = 0 := rfl
  unfold Binary64.binaryExponent
  rw [hone]
  dsimp only
  split <;> omega

/-- The digits of a word up to its last place. -/
theorem scale_lt {word : Nat} {exponent : Int} (hlow : (word.log2 : Int) - 53 ≤ exponent) :
    (Binary64.scale word 1 (-exponent)).1 / (Binary64.scale word 1 (-exponent)).2 < 2 ^ 54 := by
  have hlt : word < 2 ^ (word.log2 + 1) := Nat.lt_log2_self
  unfold Binary64.scale
  split
  · obtain ⟨k, hpower⟩ : ∃ k, (-exponent).toNat = k := ⟨_, rfl⟩
    rw [hpower, Nat.div_one]
    calc word * 2 ^ k < 2 ^ (word.log2 + 1) * 2 ^ k :=
          Nat.mul_lt_mul_of_pos_right hlt (Nat.two_pow_pos k)
      _ = 2 ^ (word.log2 + 1 + k) := (Nat.pow_add _ _ _).symm
      _ ≤ 2 ^ 54 := Nat.pow_le_pow_right (by decide) (by omega)
  · obtain ⟨k, hpower⟩ : ∃ k, (- -exponent).toNat = k := ⟨_, rfl⟩
    rw [hpower, Nat.one_mul]
    refine (Nat.div_lt_iff_lt_mul (Nat.two_pow_pos k)).2 ?_
    calc word < 2 ^ (word.log2 + 1) := hlt
      _ ≤ 2 ^ (54 + k) := Nat.pow_le_pow_right (by decide) (by omega)
      _ = 2 ^ 54 * 2 ^ k := Nat.pow_add _ _ _

theorem below_tenTo {k : Nat} (hle : k ≤ greatestPower) : Below 971 (unpacked (tenTo k)) := by
  refine below_of_magnitude (by decide) (by decide) ?_
  rw [tenTo, magnitude_nearest]
  exact Int.ofNat_lt.2 (tenTo_bits k (Nat.lt_succ_of_le hle)).2

theorem below_one : Below (-52) (unpacked (tenTo 0)) := by
  refine below_of_magnitude (by decide) (by decide) ?_
  rw [tenTo, magnitude_nearest]
  decide

/-- A word is a double with a small exponent. -/
theorem below_nearest {word : Nat} (hlt : word < wordLimit) :
    Below 14 (unpacked (Binary64.nearest word 1)) := by
  refine below_of_magnitude (by decide) (by decide) ?_
  have hdigits : word.log2 ≤ 63 := log2_le_of_lt hlt
  obtain ⟨hlow, hhigh⟩ := binaryExponent_bounds word
  rw [magnitude_nearest]
  unfold Binary64.nearestBits
  dsimp only
  generalize hplace : max (Binary64.binaryExponent word 1 - 52) (-1074) = exponent
  have hrounded := Nat.le_trans (roundHalfEven_le _ _)
    (Nat.succ_le_of_lt (scale_lt (by omega : (word.log2 : Int) - 53 ≤ exponent)))
  unfold Binary64.fractions
  omega

/-- What a word divided by powers of ten comes to is a number. -/
theorem isFinite_shrink {word : Nat} (hlt : word < wordLimit) (k : Nat) :
    (shrink (Binary64.nearest word 1) k).isFinite := by
  have hbelow := below_nearest hlt
  unfold shrink
  split
  · rename_i hle
    obtain ⟨_, _, _, _, hpower, hlarge⟩ := unpacked_tenTo hle
    exact isFinite_of_below (below_div hbelow (by decide) (by decide) hpower hlarge)
  · split
    · rename_i hmore hle
      obtain ⟨_, _, _, _, hpower, hlarge⟩ := unpacked_tenTo (Nat.le_refl greatestPower)
      obtain ⟨_, _, _, _, hpower', hlarge'⟩ := unpacked_tenTo
        (Nat.sub_le_iff_le_add'.2 (Nat.two_mul greatestPower ▸ hle))
      have hfirst := below_div hbelow (by decide) (by decide) hpower hlarge
      exact isFinite_of_below (below_div hfirst (by decide) (by decide) hpower' hlarge')
    · exact isFinite_of_below (below_of_magnitude (by decide) (by decide) (by decide) : Below 0 _)

/-- A word times a power of ten is finite if it is a number at all. -/
theorem isFinite_grow {word : Nat} {k : Nat} {x : Float} (hlt : word < wordLimit)
    (hgrown : grow? (Binary64.nearest word 1) k = some x) : x.isFinite := by
  unfold grow? at hgrown
  split at hgrown
  · rename_i hle
    dsimp only at hgrown
    split at hgrown
    · cases hgrown
    · rename_i hnumber
      cases hgrown
      rcases repack_cases (below_mul (below_nearest hlt) (below_tenTo hle)) with ⟨s, htop⟩ | hbelow
      · exact absurd (congrArg UnpackedFloat.isInf htop) hnumber
      · exact isFinite_of_below hbelow
  · cases hgrown

/-- What scaling arrives at is a number. -/
theorem isFinite_toFloat? {s : Scaled} {x : Float} (hlt : s.word < wordLimit)
    (hscaled : s.toFloat? = some x) : x.isFinite := by
  unfold toFloat? at hscaled
  split at hscaled
  · cases hscaled
    exact isFinite_of_below (below_of_magnitude (by decide) (by decide) (by decide) : Below 0 _)
  · dsimp only at hscaled
    split at hscaled
    · cases hscaled
      exact isFinite_shrink hlt _
    · exact isFinite_grow hlt hscaled

/-- A word is a number by itself. -/
theorem isSome_toFloat? {s : Scaled} (hlt : s.word < wordLimit) (hwhole : s.exponent = 0) :
    s.toFloat?.isSome := by
  have hproduct := below_mul (below_nearest hlt) below_one
  have hbelow : Below _ (unpacked (Binary64.nearest s.word 1 * tenTo 0)) :=
    below_repack (by decide) (by decide) hproduct
  have hnumber := isInf_of_below hbelow
  unfold toFloat?
  split
  · rfl
  · dsimp only
    rw [hwhole, if_neg (Int.lt_irrefl 0), Int.natAbs_zero, grow?, if_pos (Nat.zero_le _)]
    dsimp only
    rw [hnumber]
    rfl

end Scaled

end ColumnFlow
