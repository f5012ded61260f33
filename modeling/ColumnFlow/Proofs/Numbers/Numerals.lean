import ColumnFlow.Decimal.Layout
import Mathlib.Algebra.Group.Nat.Defs

/-!
# Numerals that read back

A decimal written without an exponent is digits with an optional fraction, and the characters
of such a numeral are read as that numeral.
-/

namespace ColumnFlow

namespace Decimal

theorem ofScientific_zero (e : Int) : ofScientific 0 e = zero := by
  rw [ofScientific]
  rfl

/-- Trailing zeros of the digits move into the exponent. -/
theorem ofScientific_mul_pow (m k : Nat) (e : Int) :
    ofScientific (m * 10 ^ k) e = ofScientific m (e + k) := by
  induction k generalizing e with
  | zero => simp
  | succ k ih =>
    rcases Nat.eq_zero_or_pos m with rfl | hpos
    · rw [Nat.zero_mul, ofScientific_zero, ofScientific_zero]
    · have hten : m * 10 ^ (k + 1) = m * 10 ^ k * 10 := by rw [Nat.pow_succ, Nat.mul_assoc]
      have hnonzero : m * 10 ^ k * 10 ≠ 0 :=
        Nat.mul_ne_zero (Nat.mul_ne_zero (by omega) (by simp)) (by decide)
      rw [hten, ofScientific, dif_neg hnonzero, dif_pos (Nat.mul_mod_left _ _),
        Nat.mul_div_cancel _ (by decide), ih]
      congr 1
      omega

/-- A decimal is in its only form. -/
theorem ofScientific_self (d : Decimal) : ofScientific d.mantissa d.exponent = d := by
  obtain ⟨m, e, hcanonical⟩ := d
  rcases hcanonical with hnonzero | ⟨rfl, rfl⟩
  · have : m ≠ 0 := by
      rintro rfl
      exact hnonzero rfl
    rw [ofScientific, dif_neg this, dif_neg hnonzero]
  · rw [ofScientific]
    rfl

end Decimal

namespace Numeral

/-! ## Runs of digits -/

theorem digitsValue_eq (acc : Nat) (cs : List Char) :
    digitsValue acc cs = Nat.ofDigitChars 10 cs acc :=
  Nat.ofDigitChars_eq_foldl.symm

/-- Digits are read from left to right, the second part behind the first. -/
theorem digitsValue_append (acc : Nat) (cs ds : List Char) :
    digitsValue acc (cs ++ ds) = digitsValue (digitsValue acc cs) ds :=
  List.foldl_append

theorem digitsValue_zeros (acc n : Nat) : digitsValue acc (Layout.zeros n) = acc * 10 ^ n := by
  rw [digitsValue_eq, Layout.zeros, Nat.ofDigitChars_replicate_zero, Nat.mul_comm]

theorem digitsValue_digits (d : Decimal) : digitsValue 0 d.digits = d.mantissa := by
  rw [digitsValue_eq, Decimal.digits, Nat.ofDigitChars_ten_toDigits]

/-! ## Natural numbers in texts -/

theorem not_mem_toString {c : Char} (hother : c.isDigit = false) (n : Nat) :
    c ∉ (toString n).toList := by
  intro hmem
  rw [Nat.toString_eq_repr, Nat.toList_repr] at hmem
  have hdigit := Nat.isDigit_of_mem_toDigits (by decide) (by decide) hmem
  exact absurd (hother.symm.trans hdigit) Bool.false_ne_true

/-- Two numbers with the same digits are the same number. -/
theorem toString_inj {m n : Nat} : toString m = toString n ↔ m = n := by
  constructor
  · intro hsame
    have hdigits := congrArg String.toList hsame
    rw [Nat.toString_eq_repr, Nat.toString_eq_repr, Nat.toList_repr, Nat.toList_repr] at hdigits
    have hvalues := congrArg (fun ds => Nat.ofDigitChars 10 ds 0) hdigits
    simpa using hvalues
  · rintro rfl
    rfl

/-! ## Decimals without an exponent -/

/-- Digits around a point spell the number of all of them, with as many places as stand
after the point. -/
theorem value_of_digits {whole fraction : List Char} {m : Nat}
    (hdigits : digitsValue 0 (whole ++ fraction) = m) :
    value ⟨whole, fraction, none⟩ = Decimal.ofScientific m (-(fraction.length : Int)) := by
  unfold value
  dsimp only
  rw [← digitsValue_append, hdigits, Option.getD_none, Int.zero_sub]

theorem length_zeros (n : Nat) : (Layout.zeros n).length = n := List.length_replicate

/-- The numeral without an exponent spells the decimal. -/
theorem value_positional (l : Layout) (d : Decimal) : (l.positionalNumeral d).value = d := by
  unfold Layout.positionalNumeral
  dsimp only
  split
  -- The point stands behind all of the digits,
  · rename_i hnonneg
    obtain ⟨n, heq⟩ := Int.eq_ofNat_of_zero_le hnonneg
    have hwhole : digitsValue 0 (d.digits ++ Layout.zeros n) = d.mantissa * 10 ^ n := by
      rw [digitsValue_append, digitsValue_digits, digitsValue_zeros]
    have hself : Decimal.ofScientific (d.mantissa * 10 ^ n) 0 = d := by
      rw [Decimal.ofScientific_mul_pow, Int.zero_add]
      exact heq ▸ Decimal.ofScientific_self d
    rw [heq, Int.toNat_natCast]
    split
    · have hpoint : digitsValue 0 (d.digits ++ Layout.zeros n ++ ['0'])
          = d.mantissa * 10 ^ n * 10 ^ 1 := by
        rw [digitsValue_append, hwhole]
        exact digitsValue_zeros _ 1
      rw [value_of_digits hpoint, Decimal.ofScientific_mul_pow]
      exact hself
    · rw [value_of_digits ((congrArg (digitsValue 0) (List.append_nil _)).trans hwhole)]
      exact hself
  · rename_i hnegative
    obtain ⟨places, heq⟩ : ∃ n : Nat, d.exponent = -n := ⟨(-d.exponent).toNat, by omega⟩
    rw [heq, Int.neg_neg, Int.toNat_natCast]
    split
    -- among them,
    · rename_i hfew
      have hdigits : digitsValue 0 (d.digits.take (d.digits.length - places) ++
          d.digits.drop (d.digits.length - places)) = d.mantissa := by
        rw [List.take_append_drop, digitsValue_digits]
      have hlength : (d.digits.drop (d.digits.length - places)).length = places := by
        rw [List.length_drop]
        omega
      rw [value_of_digits hdigits, hlength, ← heq, Decimal.ofScientific_self]
    -- or in front of them and of the zeros that fill up the places.
    · rename_i hmany
      have hdigits : digitsValue 0 (['0'] ++ (Layout.zeros (places - d.digits.length) ++ d.digits))
          = d.mantissa := by
        rw [digitsValue_append, digitsValue_append, digitsValue_zeros]
        change digitsValue (0 * _) d.digits = _
        rw [Nat.zero_mul, digitsValue_digits]
      have hlength : (Layout.zeros (places - d.digits.length) ++ d.digits).length = places := by
        rw [List.length_append, length_zeros]
        omega
      rw [value_of_digits hdigits, hlength, ← heq, Decimal.ofScientific_self]

/-! ## Reading -/

/-- A numeral without an exponent, of digits alone, with some before the point. -/
structure IsPositional (n : Numeral) : Prop where
  exponent : n.exponent = none
  nonempty : n.whole ≠ []
  whole : ∀ c ∈ n.whole, c.isDigit
  fraction : ∀ c ∈ n.fraction, c.isDigit

theorem isDigit_digits {d : Decimal} {c : Char} (h : c ∈ d.digits) : c.isDigit :=
  Nat.isDigit_of_mem_toDigits (by decide) (by decide) h

theorem isDigit_zeros {n : Nat} {c : Char} (h : c ∈ Layout.zeros n) : c.isDigit := by
  rw [List.eq_of_mem_replicate h]
  rfl

/-- A decimal in positional notation is digits with an optional fraction. -/
theorem isPositional (l : Layout) (d : Decimal) : (l.positionalNumeral d).IsPositional := by
  have hnonempty : d.digits ≠ [] := Nat.toDigits_ne_nil
  unfold Layout.positionalNumeral
  dsimp only
  split
  · refine ⟨rfl, by simp [hnonempty], ?_, ?_⟩
    · intro c h
      exact (List.mem_append.1 h).elim isDigit_digits isDigit_zeros
    · intro c h
      split at h
      · rw [List.mem_singleton.1 h]
        rfl
      · cases h
  · split
    · rename_i hfew
      refine ⟨rfl, ?_, fun c h => isDigit_digits (List.mem_of_mem_take h),
        fun c h => isDigit_digits (List.mem_of_mem_drop h)⟩
      have hplace : d.digits.length - (-d.exponent).toNat ≠ 0 := by omega
      simp [List.take_eq_nil_iff, hnonempty, hplace]
    · refine ⟨rfl, by simp, ?_, ?_⟩
      · intro c h
        rw [List.mem_singleton.1 h]
        rfl
      · intro c h
        exact (List.mem_append.1 h).elim isDigit_zeros isDigit_digits

/-- The characters of a numeral without an exponent. -/
theorem write_positional {n : Numeral} (h : n.IsPositional) (plusSign : Bool) :
    n.write plusSign = n.whole ++ if n.fraction.isEmpty then [] else '.' :: n.fraction := by
  unfold write
  rw [h.exponent]
  exact List.append_nil _

/-- The first character is a digit, and all are digits or the point. -/
theorem chars_of_positional {n : Numeral} (h : n.IsPositional) (plusSign : Bool) :
    ∃ c cs, n.write plusSign = c :: cs ∧ c.isDigit ∧ ∀ d ∈ c :: cs, d.isDigit || d = '.' := by
  have hall : ∀ d ∈ n.write plusSign, d.isDigit || d = '.' := by
    intro d hmem
    rw [write_positional h, List.mem_append] at hmem
    rcases hmem with hwhole | hfraction
    · rw [h.whole d hwhole]
      rfl
    · split at hfraction
      · cases hfraction
      · rcases List.mem_cons.1 hfraction with rfl | hmem
        · rfl
        · rw [h.fraction d hmem]
          rfl
  obtain ⟨c, ds, hwhole⟩ := List.exists_cons_of_ne_nil h.nonempty
  have hdigit := h.whole c (hwhole ▸ List.mem_cons_self)
  rw [write_positional h, hwhole, List.cons_append] at hall ⊢
  exact ⟨c, _, rfl, hdigit, hall⟩

theorem span_digits {cs : List Char} (h : ∀ c ∈ cs, c.isDigit) :
    cs.takeWhile Char.isDigit = cs ∧ cs.dropWhile Char.isDigit = [] := by
  have htaken : (cs ++ []).takeWhile Char.isDigit = cs ++ [] := List.takeWhile_append_of_pos h
  have hdropped : (cs ++ []).dropWhile Char.isDigit = [] := List.dropWhile_append_of_pos h
  rw [List.append_nil] at htaken hdropped
  exact ⟨htaken, hdropped⟩

/-- A numeral in positional notation is read back as it was written. -/
theorem read?_write {n : Numeral} (h : n.IsPositional) (plusSign : Bool) :
    read? (n.write plusSign) = some n := by
  have hchars := write_positional h plusSign
  obtain ⟨whole, fraction, exponent⟩ := n
  obtain ⟨hnone, hnonempty, hdigits, hdigits'⟩ := h
  dsimp only at hnone hnonempty hdigits hdigits' hchars
  subst hnone
  rw [hchars]
  unfold read?
  rw [List.takeWhile_append_of_pos hdigits, List.dropWhile_append_of_pos hdigits]
  cases fraction with
  | nil => simp [hnonempty]
  | cons c cs =>
    obtain ⟨htaken, hdropped⟩ := span_digits hdigits'
    simp [htaken, hdropped]

end Numeral

end ColumnFlow
