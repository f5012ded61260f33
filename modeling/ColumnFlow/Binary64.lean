/-!
# Doubles as exact numbers

A finite double is a whole number times a power of two. `Binary64.ofFloat?` reads
that form off the bits and `Binary64.nearest` goes the other way: it rounds a
positive ratio to the nearest double, ties to even. Both are exact arithmetic on
natural numbers.
-/

namespace ColumnFlow

/-- The bits of `-0.0`: the sign bit alone, `2^63`. -/
def signBit : Nat := 0x8000000000000000

/-- Whether the sign bit is set, as it is for `-0.0`. -/
def isNegative (x : Float) : Bool := x.toBits.toNat / signBit == 1

/-- The double `(-1)^negative * mantissa * 2^exponent`. -/
structure Binary64 where
  negative : Bool
  mantissa : Nat
  exponent : Int
deriving DecidableEq, Repr

namespace Binary64

/-- The number of fractions of each exponent, `2^52`. -/
def fractions : Nat := 0x10000000000000

/-- The bits of positive infinity, which lie just above those of every finite double. -/
def infinityBits : Nat := 2047 * fractions

/-- The exact value of a finite double; nothing for infinities and NaN. -/
def ofFloat? (x : Float) : Option Binary64 :=
  let bits := x.toBits.toNat
  let fraction := bits % fractions
  match bits / fractions % 2048 with
  | 2047 => none
  | 0 => some ⟨isNegative x, fraction, -1074⟩
  | e + 1 => some ⟨isNegative x, fractions + fraction, (e : Int) - 1074⟩

/-- The whole number nearest to `num / den`; a half goes to the even neighbour. -/
def roundHalfEven (num den : Nat) : Nat :=
  let q := num / den
  let r := num % den
  if 2 * r < den then q
  else if den < 2 * r then q + 1
  else q + q % 2

/-- `num / den * 2^k` as a ratio. -/
def scale (num den : Nat) (k : Int) : Nat × Nat :=
  if 0 ≤ k then (num * Nat.pow 2 k.toNat, den) else (num, den * Nat.pow 2 (-k).toNat)

/-- The exponent `e` with `2^e ≤ num / den < 2^(e + 1)`. -/
def binaryExponent (num den : Nat) : Int :=
  let e : Int := (num.log2 : Int) - den.log2
  let (n, d) := scale num den (-e)
  if d ≤ n then e else e - 1

/-- The bits of the double nearest to the positive ratio `num / den`. The last place is
`2^exponent`, and the bits of a double count the places below it, so a mantissa that
rounds up to the next power of two carries into the exponent by itself. -/
def nearestBits (num den : Nat) : Nat :=
  let exponent := max (binaryExponent num den - 52) (-1074)
  let (n, d) := scale num den (-exponent)
  min ((exponent + 1074).toNat * fractions + roundHalfEven n d) infinityBits

/-- The double nearest to the positive ratio `num / den`. -/
def nearest (num den : Nat) : Float := Float.ofBits (UInt64.ofNat (nearestBits num den))

end Binary64

/-- The whole number a double stands for, if it stands for one. -/
def wholeNumber? (x : Float) : Option Int :=
  (Binary64.ofFloat? x).bind fun b =>
    let magnitude : Option Nat :=
      if 0 ≤ b.exponent then some (b.mantissa * Nat.pow 2 b.exponent.toNat)
      else
        let d := Nat.pow 2 (-b.exponent).toNat
        if b.mantissa % d = 0 then some (b.mantissa / d) else none
    magnitude.map fun m => if b.negative then -(m : Int) else m

end ColumnFlow
