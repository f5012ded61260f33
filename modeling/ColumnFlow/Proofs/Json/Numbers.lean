import ColumnFlow.Codec
import ColumnFlow.Proofs.Json.Documents
import ColumnFlow.Proofs.Numbers.Scaling

/-!
# JSON numbers that read back

A natural number of 64 bits is read as it was written. What a double is read as need not be the
double that was written, but it is always a finite one; a double that is read back is so wherever
it stands.
-/

namespace ColumnFlow

/-! ## Natural numbers -/

namespace Scaled

/-- Further digits make a number no smaller. -/
theorem le_digitsValue (word : Nat) (cs : List Char) : word ≤ Numeral.digitsValue word cs := by
  induction cs generalizing word with
  | nil => exact Nat.le_refl _
  | cons c cs ih => exact Nat.le_trans (by omega) (ih (10 * word + Numeral.digitValue c))

/-- Digits are appended in full as long as the number fits a word. -/
theorem append_eq {word : Nat} {cs : List Char} (hlt : Numeral.digitsValue word cs < wordLimit) :
    append word cs = (Numeral.digitsValue word cs, 0) := by
  induction cs generalizing word with
  | nil => rfl
  | cons c cs ih =>
    have hfits := Nat.lt_of_le_of_lt (le_digitsValue (10 * word + Numeral.digitValue c) cs) hlt
    rw [append, if_pos hfits]
    exact ih hlt

theorem ofNumeral_ofNat {n : Nat} (hlt : n < wordLimit) : ofNumeral (.ofNat n) = ⟨n, 0⟩ := by
  have hvalue : Numeral.digitsValue 0 (Nat.toDigits 10 n) = n := by
    rw [Numeral.digitsValue_eq, Nat.ofDigitChars_ten_toDigits]
  have hdigits : append 0 (Nat.toDigits 10 n) = (n, 0) := by
    rw [append_eq (hvalue.symm ▸ hlt), hvalue]
  unfold ofNumeral Numeral.ofNat
  dsimp only
  rw [hdigits]
  rfl

end Scaled

namespace Json

namespace Number

/-- A natural number that fits a word is read back as it was written. -/
theorem toNat?_ofNat {n : Nat} (hlt : n < wordLimit) : (ofNat n).toNat? = some n := by
  unfold toNat? ofNat
  dsimp only
  rw [Scaled.ofNumeral_ofNat hlt]
  rfl

theorem isSome_toFloat?_ofNat {n : Nat} (hlt : n < wordLimit) : (ofNat n).toFloat?.isSome := by
  unfold toFloat? ofNat
  rw [Scaled.ofNumeral_ofNat hlt, Option.isSome_map]
  exact Scaled.isSome_toFloat? hlt rfl

/-- A natural number that was read fits a word. -/
theorem lt_of_toNat? {n : Number} {k : Nat} (hread : n.toNat? = some k) : k < wordLimit := by
  unfold toNat? at hread
  dsimp only at hread
  split at hread
  · cases hread
    exact Scaled.word_ofNumeral _
  · cases hread

/-! ## Doubles -/

theorem isFinite_neg {x : Float} (hfinite : x.isFinite) : (-x).isFinite := by
  have hbelow := isFinite_iff.1 hfinite
  rw [isFinite_iff, (neg_bits hbelow.le).2]
  exact hbelow

/-- Only finite doubles are read. -/
theorem isFinite_of_toFloat? {n : Number} {x : Float} (hread : n.toFloat? = some x) :
    x.isFinite := by
  obtain ⟨y, hscaled, rfl⟩ := Option.map_eq_some_iff.1 hread
  have hfinite := Scaled.isFinite_toFloat? (Scaled.word_ofNumeral _) hscaled
  split
  · exact isFinite_neg hfinite
  · exact hfinite

/-- A finite double is written in the form of JSON. -/
theorem isJson_of_ofFloat? {x : Float} {n : Number} (hwritten : ofFloat? x = some n) :
    n.numeral.IsJson := by
  obtain ⟨d, -, rfl⟩ := Option.map_eq_some_iff.1 hwritten
  exact Numeral.isJson_numeral d

end Number

theorem isJson_ofNat (n : Nat) : (ofNat n).IsJson :=
  List.forall_mem_singleton.2 (Numeral.isJson_ofNat n)

theorem isJson_ofFloat (x : Float) : (ofFloat x).IsJson := by
  unfold ofFloat
  cases hwritten : Number.ofFloat? x with
  | none => exact List.forall_mem_singleton.2 trivial
  | some n => exact List.forall_mem_singleton.2 (Number.isJson_of_ofFloat? hwritten)

end Json

/-- The double is read back when it is written by itself. -/
def ReadsAlone (x : Float) : Prop :=
  (Json.read? (Json.ofFloat x).compact).bind Codec.float? = some x

theorem readsAlone_iff {x : Float} : ReadsAlone x ↔ Codec.float? (Json.ofFloat x) = some x := by
  unfold ReadsAlone
  rw [Json.read?_compact (Json.isJson_ofFloat x), Option.bind_some]

/-- Reading is not correctly rounded: `1.602176634e-19` is read as another double. -/
example : ¬ ReadsAlone (Float.ofBits 0x3C07A4DA290C1653) := by
  rw [readsAlone_iff]
  decide +kernel

end ColumnFlow
