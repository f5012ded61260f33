import ColumnFlow.Expr

/-!
# Elementwise operators

What each operator does to single numbers. Truth is `1.0` or `0.0`, and every number
other than zero counts as true, NaN included.
-/

namespace ColumnFlow

/-- Whether a number counts as true. -/
def truth (x : Float) : Bool := x != 0.0

/-- The number for a truth value. -/
def flag (b : Bool) : Float := if b then 1.0 else 0.0

/-- The number nearest to a natural number. -/
def countFloat (n : Nat) : Float := Float.ofNat n

/-- A binary operator on numbers. The remainder takes the sign of the divisor. -/
def BinaryOp.kernel : BinaryOp → Float → Float → Float
  | .add, a, b => a + b
  | .sub, a, b => a - b
  | .mul, a, b => a * b
  | .div, a, b => a / b
  | .floorDiv, a, b => (a / b).floor
  | .mod, a, b => a - b * (a / b).floor
  | .pow, a, b => Float.pow a b
  | .eq, a, b => flag (a == b)
  | .ne, a, b => flag (a != b)
  | .lt, a, b => flag (a < b)
  | .le, a, b => flag (a ≤ b)
  | .gt, a, b => flag (b < a)
  | .ge, a, b => flag (b ≤ a)
  | .and, a, b => flag (truth a && truth b)
  | .or, a, b => flag (truth a || truth b)
  | .xor, a, b => flag (truth a != truth b)

/-- A unary operator on numbers. -/
def UnaryOp.kernel : UnaryOp → Float → Float
  | .neg, a => -a
  | .pos, a => a
  | .invert, a => flag (!truth a)

end ColumnFlow
