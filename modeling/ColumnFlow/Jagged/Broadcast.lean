import ColumnFlow.Jagged.Levels

/-!
# Broadcasting

Named arrays of different depths are aligned to the deepest one, the target: a shallower
array must agree with the target's outermost levels, and each of its leaves is repeated
for everything the target holds below it. Afterwards every column has one number for
each leaf of the target.
-/

namespace ColumnFlow

/-- Columns aligned to a target. -/
structure Broadcast where
  /-- The deepest input, or nothing when there were no inputs. -/
  target : Option String
  /-- The target's levels, innermost first. -/
  levels : List (List Nat)
  /-- The aligned leaves of every input, in input order. -/
  columns : List (String × List Float)

namespace Broadcast

/-- The number of leaves in each column. -/
def length (b : Broadcast) : Nat := (b.columns.head?.map fun c => c.2.length).getD 0

def isEmpty (b : Broadcast) : Bool := b.length == 0

/-- The first column of that name. -/
def column? (b : Broadcast) (name : String) : Option (List Float) := b.columns.lookup name

end Broadcast

/-- Each element as often as its count says. -/
def replicateEach {α : Type} (xs : List α) (counts : List Nat) : List α :=
  (xs.zip counts).flatMap fun p => List.replicate p.2 p.1

/-- The first element of greatest depth. -/
def deepest : List (String × Leveled) → Option (String × Leveled)
  | [] => none
  | x :: xs =>
    match deepest xs with
    | none => some x
    | some y => if x.2.depth < y.2.depth then some y else some x

/-- The innermost place at which two lists of levels differ, counting from `level`. -/
def firstDifference (level : Nat) :
    List (List Nat) → List (List Nat) → Option (Nat × List Nat × List Nat)
  | a :: as, b :: bs => if a = b then firstDifference (level + 1) as bs else some (level, a, b)
  | _, _ => none

/-- The entries of the target that a column with `below` levels fewer has a leaf for. -/
def Leveled.entriesAbove (t : Leveled) : Nat → Nat
  | 0 => t.leaves.length
  | below + 1 => (t.levels[below]?.map List.length).getD 0

/-- The leaves of an input, repeated until there is one for each leaf of the target. The
levels below its own depth are gone through from the outermost inwards. -/
def align (targetName : String) (target : Leveled) (name : String) (part : Leveled) :
    Except ShapeError (List Float) :=
  let below := target.depth - part.depth
  match firstDifference below (target.levels.drop below) part.levels with
  | some (level, expected, found) =>
    .error (.levelMismatch level name targetName expected found)
  | none =>
    let expected := target.entriesAbove below
    if part.leaves.length = expected then
      .ok ((target.levels.take below).foldr (fun counts column => replicateEach column counts)
        part.leaves)
    else .error (.lengthMismatch name targetName expected part.leaves.length)

/-- Align every input with the deepest one, the first of them if there are several. -/
def broadcast (inputs : List (String × Jagged)) : Except ShapeError Broadcast := do
  let parts := inputs.map fun i => (i.1, i.2.flatten)
  match deepest parts with
  | none => return ⟨none, [], []⟩
  | some (targetName, target) =>
    let columns ← parts.mapM fun p =>
      (align targetName target p.1 p.2).map fun column => (p.1, column)
    return ⟨some targetName, target.levels, columns⟩

end ColumnFlow
