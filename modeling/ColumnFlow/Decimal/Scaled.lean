import ColumnFlow.Decimal.Numeral
import ColumnFlow.Fault

/-!
# Scaled words

A quick way from a numeral to a double: the leading digits, as many as 64 bits hold, are
rounded to a double and then scaled by a power of ten. Each step rounds, and so the result
may miss the nearest double by some units in the last place. Numbers of at most 15 digits
with a small exponent come out nearest, since nothing is rounded before the last step.
-/

namespace ColumnFlow

/-- The number `word * 10^exponent`. -/
structure Scaled where
  word : Nat
  exponent : Int
deriving DecidableEq, Repr

namespace Scaled

-- ---------------------------------------------------------------------------
-- Leading digits
-- ---------------------------------------------------------------------------

/-- Appends digits to `word` until one does not fit into 64 bits any more. The answer comes
with the number of digits left over. -/
def append (word : Nat) : List Char → Nat × Nat
  | [] => (word, 0)
  | c :: cs =>
    let next := 10 * word + Numeral.digitValue c
    if next < wordLimit then append next cs else (word, cs.length + 1)

/-- The leading digits of a numeral. A digit left over before the point counts as a power of
ten, one after the point is dropped. The digits after the point are tried even if some
before it did not fit. -/
def ofNumeral (n : Numeral) : Scaled :=
  let (whole, excess) := append 0 n.whole
  let (word, dropped) := append whole n.fraction
  ⟨word, n.exponent.getD 0 + excess - (n.fraction.length - dropped : Nat)⟩

-- ---------------------------------------------------------------------------
-- Scaling
-- ---------------------------------------------------------------------------

/-- The greatest power of ten that is a finite double. -/
def greatestPower : Nat := 308

/-- The double nearest to a power of ten. -/
def tenTo (k : Nat) : Float := Binary64.nearest (Nat.pow 10 k) 1

/-- `x` divided by a power of ten. One beyond the greatest goes in two steps, and one
beyond its square leaves nothing of a number of 64 bits. -/
def shrink (x : Float) (k : Nat) : Float :=
  if k ≤ greatestPower then x / tenTo k
  else if k ≤ 2 * greatestPower then x / tenTo greatestPower / tenTo (k - greatestPower)
  else Float.ofBits 0

/-- `x` multiplied by a power of ten; nothing if that is beyond the greatest double. -/
def grow? (x : Float) (k : Nat) : Option Float :=
  if k ≤ greatestPower then
    let y := x * tenTo k
    if y.isInf then none else some y
  else none

/-- The double that scaling arrives at; nothing beyond the greatest double. -/
def toFloat? (s : Scaled) : Option Float :=
  if s.word = 0 then some (Float.ofBits 0)
  else
    let x := Binary64.nearest s.word 1
    if s.exponent < 0 then some (shrink x s.exponent.natAbs) else grow? x s.exponent.natAbs

end Scaled

end ColumnFlow
