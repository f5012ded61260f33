import ColumnFlow.Decimal.Numeral
import ColumnFlow.Decimal.Shortest

/-!
# Layouts of numbers

A `Layout` says how a number is written once its digits are known: where positional
notation ends, whether whole numbers keep a `.0`, how an exponent looks. The library
writes numbers in three layouts: `plain`, `tagged` and `json`.
-/

namespace ColumnFlow

/-- The decisions of a number format. -/
structure Layout where
  /-- Whether a number whose leading digit has this power of ten is written without an
  exponent. -/
  positional : Int → Bool
  /-- Whether a whole number written without an exponent ends in `.0`. -/
  pointZero : Bool
  /-- Whether a positive exponent carries a plus sign. -/
  plusSign : Bool
  tie : Tie

namespace Layout

/-- Expressions and single numbers: never an exponent, whole numbers without a point. -/
def plain : Layout := ⟨fun _ => true, false, false, .up⟩

/-- Numbers in lists and tokens: an exponent from `1e16` on and below `1e-4`, whole
numbers with a point. -/
def tagged : Layout := ⟨fun e => -4 ≤ e && e < 16, true, false, .up⟩

/-- Numbers in JSON texts: an exponent from `1e+16` on and below `1e-5`, whole numbers
with a point. -/
def json : Layout := ⟨fun e => -5 ≤ e && e < 16, true, true, .toEven⟩

/-- A run of `n` zeros. -/
def zeros (n : Nat) : List Char := List.replicate n '0'

/-- The number without an exponent. -/
def positionalNumeral (l : Layout) (d : Decimal) : Numeral :=
  let ds := d.digits
  if 0 ≤ d.exponent then
    ⟨ds ++ zeros d.exponent.toNat, if l.pointZero then ['0'] else [], none⟩
  else
    let places := (-d.exponent).toNat
    if places < ds.length then
      ⟨ds.take (ds.length - places), ds.drop (ds.length - places), none⟩
    else ⟨['0'], zeros (places - ds.length) ++ ds, none⟩

/-- The number with an exponent: one digit before the point. -/
def exponentNumeral (d : Decimal) : Numeral :=
  ⟨d.digits.take 1, d.digits.drop 1, some d.leading⟩

/-- The numeral of a decimal. -/
def numeral (l : Layout) (d : Decimal) : Numeral :=
  if l.positional d.leading then l.positionalNumeral d else exponentNumeral d

/-- The text of a decimal. -/
def write (l : Layout) (d : Decimal) : List Char := (l.numeral d).write l.plusSign

/-- The text of a double, with `NaN` and `inf` where there are no digits. -/
def writeFloat (l : Layout) (x : Float) : String :=
  let sign := if isNegative x && !x.isNaN then ['-'] else []
  match Decimal.shortest? l.tie x with
  | some d => String.ofList (sign ++ l.write d)
  | none => if x.isNaN then "NaN" else String.ofList (sign ++ ['i', 'n', 'f'])

end Layout

end ColumnFlow
