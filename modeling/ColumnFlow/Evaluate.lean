import ColumnFlow.Expr.Parser
import ColumnFlow.Failure
import ColumnFlow.Jagged.Broadcast
import ColumnFlow.Kernel
import ColumnFlow.Table

/-!
# One-pass evaluation

A pure expression is evaluated over all its columns at once: the arrays it names are
broadcast to the deepest of them, the operators run down the aligned leaves, and the
result takes the shape of the deepest array.
-/

namespace ColumnFlow

/-- The values bound to column names. -/
abbrev Environment : Type := Table Value

/-- Named constants, for names that are not bound. -/
def namedConstant? (name : String) : Option Float :=
  match name with
  | "nan" => some (0.0 / 0.0)
  | "inf" => some (1.0 / 0.0)
  | "pi" => some (Float.ofBits 0x400921fb54442d18)
  | "e" => some (Float.ofBits 0x4005bf0a8b145769)
  | _ => none

/-- An intermediate result: one number, or one for each leaf of the target. -/
inductive Operand where
  | scalar (x : Float)
  | column (xs : List Float)

namespace Operand

def map (f : Float → Float) : Operand → Operand
  | .scalar x => .scalar (f x)
  | .column xs => .column (xs.map f)

def zip (f : Float → Float → Float) : Operand → Operand → Operand
  | .scalar x, .scalar y => .scalar (f x y)
  | .scalar x, .column ys => .column (ys.map fun y => f x y)
  | .column xs, .scalar y => .column (xs.map fun x => f x y)
  | .column xs, .column ys => .column (List.zipWith f xs ys)

end Operand

/-- What the names of an expression stand for. -/
structure Inputs where
  scalars : List (String × Float)
  columns : List (String × List Float)

/-- The operand a name stands for. -/
def Inputs.get? (inputs : Inputs) (name : String) : Option Operand :=
  match inputs.scalars.lookup name with
  | some x => some (.scalar x)
  | none => (inputs.columns.lookup name).map .column

/-- The value of an expression whose names stand for `inputs`. -/
def Expr.evalOver (inputs : Inputs) : Expr → Except EvalError Operand
  | .literal (.number x) => .ok (.scalar x)
  | .literal (.bool b) => .ok (.scalar (flag b))
  | .literal (.text s) => .error (.textOperand s)
  | .symbol name none =>
    match inputs.get? name with
    | some x => .ok x
    | none => .error (.unresolved name)
  | .binary op left right => do
    let x ← left.evalOver inputs
    let y ← right.evalOver inputs
    return x.zip op.kernel y
  | .unary op operand => do
    let x ← operand.evalOver inputs
    return x.map op.kernel
  | e => .error (.needsTask e)

/-- A name resolved in an environment: a number or an array. A name that is not bound may
still be a constant. -/
def resolveName (env : Environment) (name : String) : Except EvalError (Float ⊕ Jagged) :=
  match env.get? name with
  | some (.scalar x) => .ok (.inl x)
  | some (.array a) => .ok (.inr a)
  | some v => .error (.notNumeric name v.kind)
  | none =>
    match namedConstant? name with
    | some x => .ok (.inl x)
    | none => .error (.unbound name)

/-- The names that stand for numbers. -/
def scalarsOf (resolved : List (String × (Float ⊕ Jagged))) : List (String × Float) :=
  resolved.filterMap fun p => p.2.getLeft?.map fun x => (p.1, x)

/-- The names that stand for arrays. -/
def arraysOf (resolved : List (String × (Float ⊕ Jagged))) : List (String × Jagged) :=
  resolved.filterMap fun p => p.2.getRight?.map fun a => (p.1, a)

/-- The error of an evaluation whose result cannot be put together. -/
def BuildError.asEvalError : BuildError → EvalError
  | .shape cause => .shape cause
  | .fault cause => .fault cause

/-- The value of an expression in an environment. -/
def Expr.eval (env : Environment) (e : Expr) : Except EvalError Value := do
  let resolved ← e.symbols.mapM fun name => (resolveName env name).map fun x => (name, x)
  let aligned ← (broadcast (arraysOf resolved)).mapError .shape
  match ← e.evalOver ⟨scalarsOf resolved, aligned.columns⟩ with
  | .scalar x => return .scalar x
  | .column leaves => do
    let a ← (Leveled.rebuild ⟨leaves, aligned.levels⟩).mapError BuildError.asEvalError
    return .array a

/-- The value of the expression that a text spells. -/
def evaluateText (text : String) (env : Environment) : Except EvalError Value := do
  let e ← (Expr.parse text).mapError .malformed
  e.eval env

end ColumnFlow
