import ColumnFlow.Binary64

/-!
# Decimal numbers

A `Decimal` is a natural number times a power of ten, kept without trailing zeros so
that equal numbers are equal decimals. `Decimal.toFloat` rounds one to the nearest
double.
-/

namespace ColumnFlow

/-- The number `mantissa * 10^exponent`, in its only form without trailing zeros. -/
structure Decimal where
  mantissa : Nat
  exponent : Int
  canonical : mantissa % 10 ≠ 0 ∨ (mantissa = 0 ∧ exponent = 0)
deriving DecidableEq

namespace Decimal

def zero : Decimal := ⟨0, 0, .inr ⟨rfl, rfl⟩⟩

instance : Inhabited Decimal := ⟨zero⟩

/-- The decimal `m * 10^e`. -/
def ofScientific (m : Nat) (e : Int) : Decimal :=
  if h : m = 0 then zero
  else if h10 : m % 10 = 0 then ofScientific (m / 10) (e + 1)
  else ⟨m, e, .inl h10⟩
termination_by m
decreasing_by omega

/-- The whole number `n`. -/
def ofNat (n : Nat) : Decimal := ofScientific n 0

/-- The decimal digits of the mantissa. -/
def digits (d : Decimal) : List Char := Nat.toDigits 10 d.mantissa

/-- The power of ten of the leading digit. -/
def leading (d : Decimal) : Int := d.exponent + d.digits.length - 1

/-- The nearest double. Far outside the range of doubles the answer is known without
computing the power of ten. -/
def toFloat (d : Decimal) : Float :=
  if d.mantissa = 0 then Float.ofBits 0
  else if 400 < d.exponent then Float.ofBits (UInt64.ofNat Binary64.infinityBits)
  else if d.exponent < -(400 + (d.mantissa.log2 : Int)) then Float.ofBits 0
  else if 0 ≤ d.exponent then Binary64.nearest (d.mantissa * Nat.pow 10 d.exponent.toNat) 1
  else Binary64.nearest d.mantissa (Nat.pow 10 (-d.exponent).toNat)

/-- The double nearest to a signed decimal. -/
def toSignedFloat (negative : Bool) (d : Decimal) : Float :=
  if negative then -d.toFloat else d.toFloat

end Decimal

end ColumnFlow
