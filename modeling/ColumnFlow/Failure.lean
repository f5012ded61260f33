import ColumnFlow.Expr.Render
import ColumnFlow.Expr.Token
import ColumnFlow.Value

/-!
# Failures

Everything that can go wrong while a task runs, by cause. Messages are written once, by
the `message` functions.
-/

namespace ColumnFlow

/-- Why a function refuses its arguments. -/
inductive CallError where
  | tooFewArguments (function : String) (needed : Nat)
  | expectedArray (function : String) (got : Kind)
  | expectedNumbers (got : Kind)
  | operandKinds (left right : Kind)
  | notWhole (got : Value)
  | zeroStep
  | indexOutOfRange (index : Int) (length : Nat)
  | notSubscript (got : Value)
  | shape (cause : ShapeError)
  /-- Reported by a function in its own words. -/
  | reported (text : String)

def CallError.message : CallError → String
  | .tooFewArguments function needed => s!"{function}() expects at least {needed} argument(s)"
  | .expectedArray function got => s!"{function}() expects an array, got {got.name}"
  | .expectedNumbers got => s!"expected a number or an array, got {got.name}"
  | .operandKinds left right => s!"unsupported operand types {left.name} and {right.name}"
  | .notWhole got => "slice indices must be integers, got " ++ got.display
  | .zeroStep => "slice step cannot be zero"
  | .indexOutOfRange index length => s!"index {index} out of range for {length} entries"
  | .notSubscript got => "slice() expects a slice or an index, got " ++ got.display
  | .shape cause => cause.message
  | .reported text => text

/-- What is told of a fault inside a task. -/
def Fault.message (cause : Fault) : String :=
  match cause.text? with
  | some text => "Task panicked: " ++ text
  | none => "Task panicked with unknown payload"

/-- Why an expression has no value in an environment. -/
inductive EvalError where
  | malformed (cause : SyntaxError)
  | unbound (name : String)
  | notNumeric (name : String) (got : Kind)
  | textOperand (s : String)
  | needsTask (e : Expr)
  | unresolved (name : String)
  | shape (cause : ShapeError)
  | fault (cause : Fault)

/-- The message for a name that is not bound. -/
def unboundMessage (name : String) : String := s!"Variable '{name}' not found"

def EvalError.message : EvalError → String
  | .malformed cause => cause.message
  | .unbound name => unboundMessage name
  | .notNumeric name got =>
    s!"variable '{name}' holds a {got.name}, expected a number or an array"
  | .textOperand s => "string literal " ++ quote s ++ " cannot be used in arithmetic"
  | .needsTask e =>
    "'" ++ e.render ++ "' needs its own task and cannot be evaluated in one pass"
  | .unresolved name => s!"variable '{name}' was not resolved"
  | .shape cause => cause.message
  | .fault cause => cause.message

/-- Why a task has no result. -/
inductive TaskError where
  | eval (cause : EvalError)
  | call (cause : CallError)
  | unbound (name : String)
  | missingResult (task : String)
  | noSource (name : String)
  | notInGraph
  | fault (cause : Fault)

def TaskError.message : TaskError → String
  | .eval cause => cause.message
  | .call cause => cause.message
  | .unbound name => unboundMessage name
  | .missingResult task => s!"result of task '{task}' is not available"
  | .noSource name => s!"commit of '{name}' has no source task"
  | .notInGraph => "task is not in the graph"
  | .fault cause => cause.message

/-- How a computation ends without a value: by an error or by a fault. -/
inductive Failure where
  | error (cause : TaskError)
  | fault (cause : Fault)

/-- How an evaluation that fails ends. -/
def EvalError.asFailure : EvalError → Failure
  | .fault cause => .fault cause
  | e => .error (.eval e)

/-- A fault inside a task counts as an error of the task. -/
def Failure.asTaskError : Failure → TaskError
  | .error cause => cause
  | .fault cause => .fault cause

/-- The answer of a computation that may fault. -/
abbrev Answer (α : Type) : Type := Except Failure α

namespace Answer

/-- Refuse with a call error. -/
def refuse {α : Type} (cause : CallError) : Answer α := .error (.error (.call cause))

/-- Carry on a computation that has no errors but may fault. -/
def ofFaulty {α : Type} (x : Except Fault α) : Answer α := x.mapError Failure.fault

/-- Carry on the building of an array. -/
def ofBuild {α : Type} (x : Except BuildError α) : Answer α :=
  x.mapError fun e =>
    match e with
    | .shape cause => .error (.call (.shape cause))
    | .fault cause => .fault cause

end Answer

end ColumnFlow
