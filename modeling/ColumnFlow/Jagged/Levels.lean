import ColumnFlow.Jagged

/-!
# Leaves and levels

`Jagged.flatten` separates an array into its leaves and the lengths of every level,
innermost level first; `Leveled.rebuild` folds the levels back on and refuses lengths that
do not add up. `Leveled.nest` is what it comes to if every sum of lengths fits a word.
-/

namespace ColumnFlow

/-- Leaves, and the entry lengths of each level above them, innermost first. -/
structure Leveled where
  leaves : List Float
  levels : List (List Nat)

/-- The leaves and levels of an array. -/
def Jagged.flatten : Jagged → Leveled
  | .flat leaves => ⟨leaves, []⟩
  | .nested counts content =>
    let inner := content.flatten
    ⟨inner.leaves, inner.levels ++ [counts]⟩

namespace Leveled

def depth (c : Leveled) : Nat := c.levels.length

/-- The array with the given leaves and levels. -/
def rebuild (c : Leveled) (overflow : Overflow := .faults) : Except BuildError Jagged :=
  c.levels.foldlM (fun content counts => Jagged.fromCounts overflow counts content) (.flat c.leaves)

/-- The array with the given leaves and levels, if every sum of lengths fits a word. -/
def nest (c : Leveled) : Except ShapeError Jagged :=
  c.levels.foldlM (fun content counts => Jagged.wrap counts content) (.flat c.leaves)

end Leveled

end ColumnFlow
