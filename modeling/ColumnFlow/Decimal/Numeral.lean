import ColumnFlow.Decimal

/-!
# Numerals

A `Numeral` is a number as it is spelled: the digits on either side of the point, and an
exponent. Several numerals spell the same decimal. `Numeral.read?` reads the characters of
one and `Numeral.write` writes them.
-/

namespace ColumnFlow

/-- The digits before and after the point, and the exponent if one is given. -/
structure Numeral where
  whole : List Char
  fraction : List Char
  exponent : Option Int
deriving DecidableEq

namespace Numeral

-- ---------------------------------------------------------------------------
-- Values
-- ---------------------------------------------------------------------------

/-- The number `n` in digits. -/
def ofNat (n : Nat) : Numeral := ⟨Nat.toDigits 10 n, [], none⟩

/-- Whether there is neither a point nor an exponent. -/
def isWhole (n : Numeral) : Bool := n.fraction.isEmpty && n.exponent.isNone

/-- The value of a digit. -/
def digitValue (c : Char) : Nat := c.toNat - '0'.toNat

/-- The value of a run of digits, appended to the digits of `acc`. -/
def digitsValue (acc : Nat) (cs : List Char) : Nat :=
  cs.foldl (fun n c => 10 * n + digitValue c) acc

/-- The decimal that a numeral spells. -/
def value (n : Numeral) : Decimal :=
  Decimal.ofScientific (digitsValue (digitsValue 0 n.whole) n.fraction)
    (n.exponent.getD 0 - n.fraction.length)

-- ---------------------------------------------------------------------------
-- Writing
-- ---------------------------------------------------------------------------

/-- An exponent with its mark. A positive one may carry a plus sign. -/
def writeExponent (plusSign : Bool) (e : Int) : List Char :=
  let sign := if e < 0 then ['-'] else if plusSign then ['+'] else []
  'e' :: sign ++ Nat.toDigits 10 e.natAbs

/-- The characters of a numeral. A point stands only in front of digits. -/
def write (plusSign : Bool) (n : Numeral) : List Char :=
  let fraction := if n.fraction.isEmpty then [] else '.' :: n.fraction
  n.whole ++ fraction ++ (n.exponent.map (writeExponent plusSign)).getD []

-- ---------------------------------------------------------------------------
-- Reading
-- ---------------------------------------------------------------------------

/-- An exponent after its `e`: an optional sign and at least one digit. -/
def readExponent? (cs : List Char) : Option Int :=
  let (negative, ds) := match cs with
    | '-' :: r => (true, r)
    | '+' :: r => (false, r)
    | r => (false, r)
  if ds ≠ [] ∧ ds.all Char.isDigit then
    let n := digitsValue 0 ds
    some (if negative then -(n : Int) else n)
  else none

/-- The numeral of digits with an optional point and an optional exponent. At least one
digit stands before the exponent, on either side of the point. -/
def read? (cs : List Char) : Option Numeral :=
  let whole := cs.takeWhile Char.isDigit
  let rest := cs.dropWhile Char.isDigit
  let (fraction, rest) := match rest with
    | '.' :: r => (r.takeWhile Char.isDigit, r.dropWhile Char.isDigit)
    | r => ([], r)
  if whole.isEmpty && fraction.isEmpty then none
  else
    match rest with
    | [] => some ⟨whole, fraction, none⟩
    | c :: r =>
      if c = 'e' ∨ c = 'E' then (readExponent? r).map fun e => ⟨whole, fraction, some e⟩
      else none

end Numeral

end ColumnFlow
