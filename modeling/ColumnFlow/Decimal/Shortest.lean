import ColumnFlow.Decimal

/-!
# Shortest decimals

`Decimal.shortest` finds a decimal that reads back as a given double, with as few
digits as that allows. It tries the two neighbours of the double on one decimal grid
after another, from coarse to fine, and stops at the first that reads back.
-/

namespace ColumnFlow

/-- Which neighbour wins when both read back and are equally near. -/
inductive Tie where
  | up
  | toEven
deriving DecidableEq, Repr

namespace Decimal

/-- The value of a finite double without its sign, as a ratio. -/
def ratio (b : Binary64) : Nat × Nat := Binary64.scale b.mantissa 1 b.exponent

/-- The two neighbours of `num / den` on the grid of multiples of `10^g`, the nearer one
first. -/
def neighbours (tie : Tie) (num den : Nat) (g : Int) : List Decimal :=
  let (n, d) :=
    if 0 ≤ g then (num, den * Nat.pow 10 g.toNat) else (num * Nat.pow 10 (-g).toNat, den)
  let low := n / d
  let r := n % d
  let upFirst :=
    if 2 * r < d then false
    else if d < 2 * r then true
    else match tie with
      | .up => true
      | .toEven => low % 2 == 1
  let lower := ofScientific low g
  let upper := ofScientific (low + 1) g
  if upFirst then [upper, lower] else [lower, upper]

/-- The first neighbour that reads back as the double with the given bits, on the grids
from `10^g` down through `grids` finer ones. -/
def search (tie : Tie) (num den : Nat) (bits : UInt64) (g : Int) : Nat → Option Decimal
  | 0 => none
  | grids + 1 =>
    match (neighbours tie num den g).find? fun d => d.toFloat.toBits == bits with
    | some d => some d
    | none => search tie num den bits (g - 1) grids

/-- A power of ten above the ratio: a decimal digit is worth more than three bits, less
than four. -/
def gridAbove (num den : Nat) : Int :=
  let e := (num.log2 : Int) - den.log2 + 1
  if 0 ≤ e then e * 30103 / 100000 + 1 else e * 3 / 10 + 1

/-- The exact decimal of a finite double: a negative power of two is a power of five over
a power of ten. -/
def exact (b : Binary64) : Decimal :=
  if 0 ≤ b.exponent then ofNat (b.mantissa * Nat.pow 2 b.exponent.toNat)
  else ofScientific (b.mantissa * Nat.pow 5 (-b.exponent).toNat) b.exponent

/-- The shortest decimal that reads back as the magnitude of `x`; nothing for infinities
and NaN. -/
def shortest? (tie : Tie) (x : Float) : Option Decimal :=
  (Binary64.ofFloat? x).map fun b =>
    if b.mantissa = 0 then zero
    else
      let (num, den) := ratio b
      let bits := UInt64.ofNat (x.toBits.toNat % signBit)
      (search tie num den bits (gridAbove num den) 40).getD (exact b)

end Decimal

end ColumnFlow
