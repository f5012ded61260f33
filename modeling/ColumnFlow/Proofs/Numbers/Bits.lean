import ColumnFlow.Binary64
import Mathlib

/-!
# Doubles and their bits

The 64 bits of a double are a sign, an exponent and a mantissa. Every pattern that is no NaN
belongs to exactly one double, and negation turns the sign over and leaves the rest.
-/

namespace ColumnFlow

open Float.Model (Format)
open Float.Model.UnpackedFloat

/-! ## The three fields -/

theorem toBitVec_ofBitVec (s : BitVec 1) : (Sign.ofBitVec s).toBitVec = s := by
  revert s
  decide

theorem ofBitVec_toBitVec (s : Sign) : Sign.ofBitVec s.toBitVec = s := by
  cases s with
  | negative => rfl
  | positive => rfl

/-- The three fields lie side by side in the 64 bits. -/
theorem toNat_packComponents (s : Sign) (e : BitVec 11) (m : BitVec 52) :
    (packComponents Format.binary64 s e m).toNat
      = s.toBitVec.toNat * 2 ^ 63 + e.toNat * 2 ^ 52 + m.toNat := by
  unfold packComponents
  rw [BitVec.toNat_append, BitVec.toNat_append]
  rw [← Nat.shiftLeft_add_eq_or_of_lt m.isLt, ← Nat.shiftLeft_add_eq_or_of_lt e.isLt]
  simp only [Nat.shiftLeft_eq]
  omega

/-- The first bit is the sign. -/
theorem unpackSign_packComponents (s : Sign) (e : BitVec 11) (m : BitVec 52) :
    unpackSign (packComponents Format.binary64 s e m) = s.toBitVec := by
  apply BitVec.eq_of_toNat_eq
  have hs := s.toBitVec.isLt
  have he := e.isLt
  have hm := m.isLt
  simp only [unpackSign, BitVec.extractLsb_toNat, BitVec.toNat_cast]
  rw [toNat_packComponents, Nat.shiftRight_eq_div_pow]
  change _ / 2 ^ 63 % 2 ^ 1 = _
  omega

/-- A pattern of 64 bits is made of its fields. -/
theorem packComponents_fields (b : BitVec 64) :
    ∃ s e m, b = packComponents Format.binary64 s e m := by
  refine ⟨Sign.ofBitVec (@unpackSign Format.binary64 b), @unpackExponent Format.binary64 b,
    @unpackMantissa Format.binary64 b, ?_⟩
  simp only [packComponents, toBitVec_ofBitVec, unpackSign, unpackExponent, unpackMantissa,
    BitVec.extractLsb]
  ext i hi
  grind

/-! ## Unpacking and packing -/

/-- What the fields stand for. -/
theorem unpack_packComponents (s : Sign) (e : BitVec 11) (m : BitVec 52) :
    unpack Format.binary64 (packComponents Format.binary64 s e m) =
      if e = -1#11 then if m = 0#52 then .infinity s else .notANumber
      else if e = 0#11 then
        if h : m.toNat = 0 then .zero s
        else .finite s m.toNat (-1074) (Nat.pos_of_ne_zero h)
      else .finite s (2 ^ 52 + m.toNat) ((e.toNat : Int) - 1075) (by omega) := by
  have hone : (1#1 ++ m).toNat = 2 ^ 52 + m.toNat := by
    rw [BitVec.toNat_append, ← Nat.shiftLeft_add_eq_or_of_lt m.isLt]
    rfl
  unfold unpack
  simp only [unpackMantissa_packComponents, unpackExponent_packComponents,
    unpackSign_packComponents, ofBitVec_toBitVec, hone]
  split
  · rfl
  · split
    · rename_i hzero
      subst hzero
      simp only [← BitVec.toNat_inj]
      rfl
    · rfl

/-- The fields of a finite number. -/
theorem pack_finite (s : Sign) (m : Nat) (e : Int) (hpos : 0 < m) :
    pack Format.binary64 (.finite s m e hpos) =
      if 2 ^ 11 ≤ (e + 1075).toNat + 1 then packedInfinity Format.binary64 s
      else if m.log2 + 1 = 53 then
        packComponents Format.binary64 s (BitVec.ofNat 11 (e + 1075).toNat) (BitVec.ofNat 52 m)
      else packComponents Format.binary64 s 0#11 (BitVec.ofNat 52 m) := by
  have hbiased : e + (1023 : Nat) + (52 : Nat) = e + 1075 := by omega
  unfold pack
  rw [← hbiased]
  rfl

/-- The fields of a pattern that is no NaN come back. -/
theorem pack_unpack {s : Sign} {e : BitVec 11} {m : BitVec 52} (hnumber : e = -1#11 → m = 0#52) :
    pack Format.binary64 (unpack Format.binary64 (packComponents Format.binary64 s e m))
      = packComponents Format.binary64 s e m := by
  rw [unpack_packComponents]
  split
  · rename_i htop
    rw [if_pos (hnumber htop), htop, hnumber htop]
    rfl
  · rename_i hnotTop
    split
    · rename_i hzero
      subst hzero
      split
      · rename_i hzero
        have hempty : m = 0#52 := BitVec.toNat_inj.1 hzero
        rw [hempty]
        rfl
      · rename_i hnonzero
        -- A subnormal: its mantissa is short of the leading bit, which is how packing tells it.
        have hlog : m.toNat.log2 + 1 ≠ 53 := by
          have := (Nat.log2_lt hnonzero).2 m.isLt
          omega
        rw [pack_finite, if_neg (by decide), if_neg hlog, BitVec.ofNat_toNat, BitVec.setWidth_eq]
    -- A normal number: unpacking has put the leading bit in front, and packing takes it away.
    · have hlog : (2 ^ 52 + m.toNat).log2 + 1 = 53 := by
        have := m.isLt
        have : (2 ^ 52 + m.toNat).log2 = 52 := (Nat.log2_eq_iff (by omega)).2 (by omega)
        omega
      have hbiased : ((e.toNat : Int) - 1075 + 1075).toNat = e.toNat := by omega
      have hbound : ¬ 2 ^ 11 ≤ e.toNat + 1 := by
        have := e.isLt
        have : e.toNat ≠ 2047 := fun h => hnotTop (BitVec.toNat_inj.1 h)
        omega
      rw [pack_finite, hbiased, if_neg hbound, if_pos hlog]
      congr 1
      · rw [BitVec.ofNat_toNat, BitVec.setWidth_eq]
      · apply BitVec.eq_of_toNat_eq
        rw [BitVec.toNat_ofNat]
        have := m.isLt
        omega

/-- Negation turns the sign over. -/
theorem neg_unpack (s : Sign) (e : BitVec 11) (m : BitVec 52) :
    (unpack Format.binary64 (packComponents Format.binary64 s e m)).neg
      = unpack Format.binary64 (packComponents Format.binary64 (-s) e m) := by
  rw [unpack_packComponents, unpack_packComponents]
  split
  · split
    · rfl
    · rfl
  · split
    · split
      · rfl
      · rfl
    · rfl

/-! ## Doubles -/

/-- The bits of a double without its sign. -/
def magnitude (x : Float) : Nat := x.toBits.toNat % signBit

/-- A double is known by its bits. -/
theorem toBits_inj {x y : Float} (h : x.toBits = y.toBits) : x = y := by
  obtain ⟨⟨a, _⟩⟩ := x
  obtain ⟨⟨b, _⟩⟩ := y
  cases (h : a = b)
  rfl

/-- The sign and the other bits of a pattern with given fields. -/
theorem bits_of_fields {b : UInt64} {s : Sign} {e : BitVec 11} {m : BitVec 52}
    (hfields : b.toBitVec = packComponents Format.binary64 s e m) :
    b.toNat / signBit = s.toBitVec.toNat ∧ b.toNat % signBit = e.toNat * 2 ^ 52 + m.toNat := by
  have hvalue : b.toNat = _ := congrArg BitVec.toNat hfields
  have he := e.isLt
  have hm := m.isLt
  rw [toNat_packComponents] at hvalue
  unfold signBit
  omega

/-- The sign, the mantissa and the exponent of a double. -/
def unpacked (x : Float) : Float.Model.UnpackedFloat := unpack Format.binary64 x.toBits.toBitVec

/-- Every double has a sign, an exponent and a mantissa, and its magnitude is the latter two. -/
theorem exists_fields (x : Float) : ∃ s, ∃ e : BitVec 11, ∃ m : BitVec 52,
    unpacked x = unpack Format.binary64 (packComponents Format.binary64 s e m) ∧
      magnitude x = e.toNat * 2 ^ 52 + m.toNat := by
  obtain ⟨s, e, m, hfields⟩ := packComponents_fields x.toBits.toBitVec
  exact ⟨s, e, m, congrArg (unpack Format.binary64) hfields, (bits_of_fields hfields).2⟩

/-- Up to the pattern of infinity, only infinity has the exponent of a NaN. -/
theorem mantissa_eq_zero {e : BitVec 11} {m : BitVec 52}
    (hle : e.toNat * 2 ^ 52 + m.toNat ≤ Binary64.infinityBits) (htop : e = -1#11) : m = 0#52 := by
  have hvalue : e.toNat = 2047 := congrArg BitVec.toNat htop
  unfold Binary64.infinityBits Binary64.fractions at hle
  refine BitVec.eq_of_toNat_eq ?_
  change m.toNat = 0
  omega

/-- Up to infinity a pattern is that of a double. -/
theorem toBits_ofBits {b : UInt64} (hnumber : b.toNat % signBit ≤ Binary64.infinityBits) :
    (Float.ofBits b).toBits = b := by
  obtain ⟨s, e, m, hfields⟩ := packComponents_fields b.toBitVec
  rw [(bits_of_fields hfields).2] at hnumber
  change UInt64.ofBitVec (pack Format.binary64 (unpack Format.binary64 b.toBitVec)) = b
  rw [hfields, pack_unpack (mantissa_eq_zero hnumber), ← hfields, UInt64.ofBitVec_toBitVec]

/-- A double is finite exactly if its magnitude is less than that of infinity. -/
theorem isFinite_iff {x : Float} : x.isFinite ↔ magnitude x < Binary64.infinityBits := by
  obtain ⟨s, e, m, hfields, bits⟩ := exists_fields x
  have he : e.toNat < 2 ^ 11 := e.isLt
  have hm : m.toNat < 2 ^ 52 := m.isLt
  have htop : e = -1#11 ↔ e.toNat = 2047 := BitVec.toNat_inj.symm
  change (unpacked x).isFinite ↔ _
  rw [bits, hfields, unpack_packComponents]
  unfold Binary64.infinityBits Binary64.fractions
  split
  · rename_i h
    have hvalue := htop.1 h
    have habove : ¬ e.toNat * 2 ^ 52 + m.toNat < 2047 * 0x10000000000000 := by omega
    split
    · exact iff_of_false Bool.false_ne_true habove
    · exact iff_of_false Bool.false_ne_true habove
  · rename_i h
    have hvalue : e.toNat ≠ 2047 := fun heq => h (htop.2 heq)
    have hbelow : e.toNat * 2 ^ 52 + m.toNat < 2047 * 0x10000000000000 := by omega
    split
    · split
      · exact iff_of_true rfl hbelow
      · exact iff_of_true rfl hbelow
    · exact iff_of_true rfl hbelow

theorem isNaN_eq_false {x : Float} (hfinite : x.isFinite) : x.isNaN = false := by
  change (unpacked x).isFinite = true at hfinite
  change (unpacked x).isNaN = false
  cases hnumber : unpacked x with
  | notANumber =>
    rw [hnumber] at hfinite
    cases hfinite
  | infinity s => rfl
  | zero s => rfl
  | finite s m e hpos => rfl

/-- Negation of a number turns the sign over. -/
theorem neg_bits {x : Float} (hnumber : magnitude x ≤ Binary64.infinityBits) :
    isNegative (-x) = !isNegative x ∧ magnitude (-x) = magnitude x := by
  obtain ⟨s, e, m, hfields⟩ := packComponents_fields x.toBits.toBitVec
  obtain ⟨hsign, bits⟩ := bits_of_fields hfields
  unfold magnitude at hnumber
  rw [bits] at hnumber
  have hturned : (-x).toBits.toBitVec = packComponents Format.binary64 (-s) e m := by
    change pack Format.binary64 (unpack Format.binary64 x.toBits.toBitVec).neg = _
    rw [hfields, neg_unpack, pack_unpack (mantissa_eq_zero hnumber)]
  obtain ⟨hsign', hbits'⟩ := bits_of_fields hturned
  unfold isNegative magnitude
  rw [hsign, hsign', bits, hbits']
  refine ⟨?_, rfl⟩
  cases s with
  | negative => rfl
  | positive => rfl

/-- A number that is not negative is given by its magnitude. -/
theorem toNat_toBits {x : Float} (hsign : isNegative x = false) : x.toBits.toNat = magnitude x := by
  have hlt := x.toBits.toNat_lt
  have hquotient : x.toBits.toNat / signBit ≠ 1 := by
    simpa [isNegative] using hsign
  unfold magnitude
  unfold signBit at *
  omega

/-! ## Exact numbers -/

namespace Binary64

/-- The form in which a double is read off its bits. -/
structure Canonical (b : Binary64) : Prop where
  least : -1074 ≤ b.exponent
  greatest : b.exponent ≤ 971
  mantissa_lt : b.mantissa < 2 * fractions
  leading : fractions ≤ b.mantissa ∨ b.exponent = -1074

/-- The bits of a double without its sign, from its exact form. -/
def bits (b : Binary64) : Nat := (b.exponent + 1074).toNat * fractions + b.mantissa

/-- A finite double has an exact value, in canonical form. -/
theorem ofFloat?_of_isFinite {x : Float} (hfinite : x.isFinite) :
    ∃ b, ofFloat? x = some b ∧ b.Canonical ∧ b.bits = magnitude x ∧
      b.negative = isNegative x := by
  have hbelow := isFinite_iff.1 hfinite
  unfold magnitude signBit infinityBits fractions at hbelow
  unfold ofFloat?
  dsimp only
  split
  · rename_i htop
    unfold fractions at htop
    omega
  · rename_i hzero
    refine ⟨_, rfl, ⟨?_, ?_, ?_, .inr rfl⟩, ?_, rfl⟩
    all_goals
      simp only [bits, magnitude, fractions, signBit] at *
      omega
  · rename_i he hexponent
    refine ⟨_, rfl, ⟨?_, ?_, ?_, .inl ?_⟩, ?_, rfl⟩
    all_goals
      simp only [bits, magnitude, fractions, signBit] at *
      omega

/-- Infinities and NaN have no exact form. -/
theorem ofFloat?_eq_none {x : Float} (hinfinite : ¬ x.isFinite) : ofFloat? x = none := by
  have htop : x.toBits.toNat / fractions % 2048 = 2047 := by
    have habove := mt isFinite_iff.2 hinfinite
    unfold magnitude signBit infinityBits fractions at *
    omega
  unfold ofFloat?
  dsimp only
  rw [htop]
  rfl

end Binary64

end ColumnFlow
