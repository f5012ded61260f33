import ColumnFlow.Jagged.Broadcast
import ColumnFlow.Kernel
import ColumnFlow.Registry
import ColumnFlow.Slice

/-!
# Builtin functions

The functions every registry may start with: the operators lifted to values, four
elementwise functions, and `slice`, `count_nonzero` and `num` on the outer axis.
-/

namespace ColumnFlow

-- ---------------------------------------------------------------------------
-- Lifting to values
-- ---------------------------------------------------------------------------

/-- Apply `f` to every number of a value. -/
def Value.mapNumbers (f : Float → Float) : Value → Answer Value
  | .scalar x => .ok (.scalar (f x))
  | .array a => .ok (.array (a.map f))
  | v => .refuse (.expectedNumbers v.kind)

/-- Combine two arrays number by number, broadcasting the shallower to the deeper. -/
def Jagged.zip (f : Float → Float → Float) (a b : Jagged) : Except BuildError Jagged := do
  let aligned ← (broadcast [("lhs", a), ("rhs", b)]).mapError .shape
  match aligned.columns with
  | [(_, left), (_, right)] => Leveled.rebuild ⟨List.zipWith f left right, aligned.levels⟩
  | _ => Leveled.rebuild ⟨[], aligned.levels⟩

/-- Combine two values number by number. -/
def Value.zip (f : Float → Float → Float) : Value → Value → Answer Value
  | .scalar x, .scalar y => .ok (.scalar (f x y))
  | .scalar x, .array b => .ok (.array (b.map fun y => f x y))
  | .array a, .scalar y => .ok (.array (a.map fun x => f x y))
  | .array a, .array b => .ofBuild ((a.zip f b).map .array)
  | a, b => .refuse (.operandKinds a.kind b.kind)

-- ---------------------------------------------------------------------------
-- Arguments
-- ---------------------------------------------------------------------------

/-- The argument at `index`. -/
def argument (function : String) (args : List Value) (index : Nat) : Answer Value :=
  match args[index]? with
  | some v => .ok v
  | none => .refuse (.tooFewArguments function (index + 1))

/-- The argument at `index`, which has to be an array. -/
def arrayArgument (function : String) (args : List Value) (index : Nat) : Answer Jagged := do
  match ← argument function args index with
  | .array a => return a
  | v => .refuse (.expectedArray function v.kind)

-- ---------------------------------------------------------------------------
-- The functions
-- ---------------------------------------------------------------------------

namespace Builtin

/-- A binary operator on its first two arguments. -/
def binary (op : BinaryOp) (args : List Value) : Answer Value := do
  let left ← argument op.functionName args 0
  let right ← argument op.functionName args 1
  left.zip op.kernel right

/-- An elementwise function on its first argument. -/
def elementwise (name : String) (f : Float → Float) (args : List Value) : Answer Value := do
  (← argument name args 0).mapNumbers f

/-- `slice(x, (lower, upper, step))` or `slice(x, index)` on the outer axis. -/
def slice (args : List Value) : Answer Value := do
  let a ← arrayArgument "slice" args 0
  a.select (← argument "slice" args 1)

/-- The number of leaves that count as true. -/
def countTrue (xs : List Float) : Nat := (xs.filter truth).length

/-- The leaves below an entry of a nested array. -/
def entryLeaves (a : Jagged) (i : Nat) : Except Fault (List Float) :=
  (a.entry? i).map fun
    | some (.array entry) => entry.leaves
    | _ => []

/-- `count_nonzero(x)`: the number of nonzero leaves in every outer entry. -/
def countNonzero (args : List Value) : Answer Value := do
  match ← arrayArgument "count_nonzero" args 0 with
  | .flat xs => return .scalar (countFloat (countTrue xs))
  | a => do
    let leaves ← .ofFaulty ((List.range a.length).mapM (entryLeaves a))
    return .array (.flat (leaves.map fun xs => countFloat (countTrue xs)))

/-- `num(x)`: the length of every outer entry, or of the array itself when it is flat. -/
def num (args : List Value) : Answer Value := do
  match ← arrayArgument "num" args 0 with
  | .flat xs => return .scalar (countFloat xs.length)
  | .nested counts _ => return .array (.flat (counts.map countFloat))

/-- Every builtin with its name. -/
def all : List (String × (List Value → Answer Value)) :=
  BinaryOp.all.map (fun op => (op.functionName, binary op)) ++
  UnaryOp.all.map (fun op => (op.functionName, elementwise op.functionName op.kernel)) ++
  [ ("sqrt", elementwise "sqrt" Float.sqrt),
    ("abs", elementwise "abs" Float.abs),
    ("exp", elementwise "exp" Float.exp),
    ("log", elementwise "log" Float.log),
    ("slice", slice),
    ("count_nonzero", countNonzero),
    ("num", num) ]

end Builtin

/-- The registry of the builtin functions. -/
def Registry.builtins : Registry :=
  Builtin.all.foldl (fun r f => r.install f.1 f.2) .empty

end ColumnFlow
