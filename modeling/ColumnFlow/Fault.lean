/-!
# Faults

A fault is a computation that reached a state it has no answer for, such as an index
outside a list. It is kept apart from errors, which are answers. Arithmetic on slice
positions is done in 64-bit signed integers and faults where that range is left. Lengths are
added in 64-bit words, and what becomes of a sum that does not fit one depends on the build.
-/

namespace ColumnFlow

/-- Why a computation has no answer. -/
inductive Fault where
  | outOfRange (index length : Nat)
  | emptyRange
  | overflow
  /-- Raised by a function with a text of its own. -/
  | raised (text : String)
  /-- Raised by a function without a text. -/
  | unnamed
deriving DecidableEq, Repr

/-- The text of a fault, if it has one. -/
def Fault.text? : Fault → Option String
  | .outOfRange index length =>
    some s!"index out of bounds: the len is {length} but the index is {index}"
  | .emptyRange => some "assertion failed: min <= max"
  | .overflow => some "attempt to add with overflow"
  | .raised text => some text
  | .unnamed => none

/-- The element at `index`. -/
def elementAt {α : Type} (xs : List α) (index : Nat) : Except Fault α :=
  match xs[index]? with
  | some x => .ok x
  | none => .error (.outOfRange index xs.length)

-- ---------------------------------------------------------------------------
-- 64-bit signed integers
-- ---------------------------------------------------------------------------

namespace Int64Range

/-- The number `-2^63`. -/
def least : Int := -0x8000000000000000

/-- The number `2^63 - 1`. -/
def greatest : Int := 0x7fffffffffffffff

/-- The nearest number of the range. -/
def saturate (n : Int) : Int := max least (min n greatest)

/-- The sum, if it stays in the range. -/
def add? (a b : Int) : Option Int :=
  if least ≤ a + b ∧ a + b ≤ greatest then some (a + b) else none

/-- The sum, with a fault where the range is left. -/
def add (a b : Int) : Except Fault Int :=
  match add? a b with
  | some n => .ok n
  | none => .error .overflow

/-- The nearest number from `low` to `high`. -/
def clamp (n low high : Int) : Except Fault Int :=
  if low ≤ high then .ok (max low (min n high)) else .error .emptyRange

end Int64Range

-- ---------------------------------------------------------------------------
-- 64-bit words
-- ---------------------------------------------------------------------------

/-- The least number of more than 64 bits, `2^64`. -/
def wordLimit : Nat := 0x10000000000000000

/-- What a build does about a sum that does not fit a word. -/
inductive Overflow where
  /-- The addition faults. -/
  | faults
  /-- The carry is dropped. -/
  | wraps
deriving DecidableEq, Repr

namespace Overflow

/-- The sum of two words, of which there are `limit`. -/
def add (overflow : Overflow) (limit a b : Nat) : Except Fault Nat :=
  if a + b < limit then .ok (a + b)
  else
    match overflow with
    | .faults => .error .overflow
    | .wraps => .ok ((a + b) % limit)

/-- The sum of some words, added one after the other. -/
def sum (overflow : Overflow) (limit : Nat) (ns : List Nat) : Except Fault Nat :=
  ns.foldlM (overflow.add limit) 0

end Overflow

end ColumnFlow
