import ColumnFlow.Fault

/-!
# Jagged arrays

A jagged array is a column of numbers, nested to any depth with entries of any length.
Each level stores the lengths of its entries and, back to back, what they hold. The
array is consistent when every level's lengths add up to what it holds.
-/

namespace ColumnFlow

/-- Numbers, or entries of given lengths over the content they are cut from. -/
inductive Jagged where
  | flat (leaves : List Float)
  | nested (counts : List Nat) (content : Jagged)
deriving BEq

/-- Disagreement between the shapes of jagged arrays. Levels count from the innermost. -/
inductive ShapeError where
  | levelMismatch (level : Nat) (column target : String) (expected found : List Nat)
  | lengthMismatch (column target : String) (expected found : Nat)
  | countMismatch (level expected found : Nat)
deriving DecidableEq

/-- A list of lengths between brackets. -/
def showCounts (counts : List Nat) : String :=
  "[" ++ ", ".intercalate (counts.map toString) ++ "]"

def ShapeError.message : ShapeError → String
  | .levelMismatch level column target expected found =>
    s!"Unable to broadcast '{column}' to '{target}': counts differ at level {level}, " ++
      s!"expected {showCounts expected} but found {showCounts found}"
  | .lengthMismatch column target expected found =>
    s!"Unable to broadcast '{column}' to '{target}': " ++
      s!"expected {expected} entries but found {found}"
  | .countMismatch level expected found =>
    s!"Counts at level {level} sum to {expected}, but the content has {found} entries"

/-- Why an array cannot be put together: its lengths do not add up, or adding them faults. -/
inductive BuildError where
  | shape (cause : ShapeError)
  | fault (cause : Fault)
deriving DecidableEq

namespace Jagged

/-- The sum of the lengths of entries. -/
def total (counts : List Nat) : Nat := counts.foldr (· + ·) 0

@[simp] theorem total_nil : total [] = 0 := rfl

@[simp] theorem total_cons (count : Nat) (counts : List Nat) :
    total (count :: counts) = count + total counts := rfl

@[simp] theorem total_append (first second : List Nat) :
    total (first ++ second) = total first + total second := by
  induction first with
  | nil => simp
  | cons count counts ih => simp [ih, Nat.add_assoc]

/-- The number of outer entries. -/
def length : Jagged → Nat
  | .flat leaves => leaves.length
  | .nested counts _ => counts.length

def isEmpty (a : Jagged) : Bool := a.length == 0

/-- The number of levels above the numbers. -/
def depth : Jagged → Nat
  | .flat _ => 0
  | .nested _ content => content.depth + 1

/-- The numbers at the bottom, whatever the nesting. -/
def leaves : Jagged → List Float
  | .flat xs => xs
  | .nested _ content => content.leaves

/-- Every level's lengths add up to what it holds. -/
def Consistent : Jagged → Prop
  | .flat _ => True
  | .nested counts content => total counts = content.length ∧ content.Consistent

instance decidableConsistent : (a : Jagged) → Decidable a.Consistent
  | .flat _ => .isTrue trivial
  | .nested counts content =>
    have := decidableConsistent content
    inferInstanceAs (Decidable (total counts = content.length ∧ content.Consistent))

/-- Apply `f` to every number, keeping the shape. -/
def map (f : Float → Float) : Jagged → Jagged
  | .flat xs => .flat (xs.map f)
  | .nested counts content => .nested counts (content.map f)

@[simp] theorem length_map (f : Float → Float) (a : Jagged) : (a.map f).length = a.length := by
  cases a <;> simp [map, length]

@[simp] theorem depth_map (f : Float → Float) (a : Jagged) : (a.map f).depth = a.depth := by
  induction a with
  | flat xs => rfl
  | nested counts content ih => simp [map, depth, ih]

@[simp] theorem leaves_map (f : Float → Float) (a : Jagged) :
    (a.map f).leaves = a.leaves.map f := by
  induction a with
  | flat xs => rfl
  | nested counts content ih => simp [map, leaves, ih]

/-- Applying a function to the numbers does not change whether the lengths add up. -/
theorem consistent_map (f : Float → Float) (a : Jagged) :
    (a.map f).Consistent ↔ a.Consistent := by
  induction a with
  | flat xs => exact Iff.rfl
  | nested counts content ih => simp [map, Consistent, ih]

-- ---------------------------------------------------------------------------
-- Building
-- ---------------------------------------------------------------------------

/-- How many values a word has that counts the elements of a list: `2^64`, or more for a list too
long for that, which no memory holds. -/
def wordsFor (length : Nat) : Nat := max wordLimit (length + 1)

/-- One more level over `content`, with entries of the given lengths. -/
def fromCounts (overflow : Overflow) (counts : List Nat) (content : Jagged) :
    Except BuildError Jagged := do
  let sum ← (overflow.sum (wordsFor content.length) counts).mapError .fault
  if sum = content.length then return .nested counts content
  else .error (.shape (.countMismatch content.depth sum content.length))

/-- What `fromCounts` comes to if every sum fits a word. -/
def wrap (counts : List Nat) (content : Jagged) : Except ShapeError Jagged :=
  if total counts = content.length then .ok (.nested counts content)
  else .error (.countMismatch content.depth (total counts) content.length)

/-- A level is put on exactly where its lengths add up. -/
theorem wrap_eq_ok_iff (counts : List Nat) (content a : Jagged) :
    wrap counts content = .ok a ↔ total counts = content.length ∧ a = .nested counts content := by
  unfold wrap
  split
  · next h => simp [h, eq_comm]
  · next h => simp [h]

/-- The array whose outer entries are the given rows. -/
def ofRows (rows : List (List Float)) : Jagged :=
  .nested (rows.map List.length) (.flat rows.flatten)

-- ---------------------------------------------------------------------------
-- Selecting outer entries
-- ---------------------------------------------------------------------------

/-- The places in the content of the entry at `i`. -/
def entryPlaces (counts : List Nat) (i : Nat) : Except Fault (List Nat) :=
  (elementAt counts i).map fun count => List.range' (total (counts.take i)) count

/-- The outer entries at `indices`, in that order. -/
def take : Jagged → List Nat → Except Fault Jagged
  | .flat xs, indices => do
    return .flat (← indices.mapM (elementAt xs))
  | .nested counts content, indices => do
    let kept ← indices.mapM (elementAt counts)
    let places ← indices.mapM (entryPlaces counts)
    return .nested kept (← content.take places.flatten)

end Jagged

end ColumnFlow
