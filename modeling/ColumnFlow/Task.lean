import ColumnFlow.Evaluate
import ColumnFlow.Registry

/-!
# Tasks

A task is one named unit of work: a literal, the one-pass evaluation of an expression, a
call of a function on the results of other tasks, or the binding of a result to a
variable. A task depends on the tasks its arguments refer to and on those it has to come
after.
-/

namespace ColumnFlow

/-- An argument of a task. -/
inductive Arg where
  /-- The result of a task. -/
  | ref (task : String)
  /-- A variable the task reads from the environment. -/
  | column (name : String)
  | literal (value : Literal)
  /-- A part of a slice that was left out. -/
  | absent
  | tuple (items : List Arg)

instance : Inhabited Arg := ⟨.absent⟩

/-- The work of a task. -/
inductive Work where
  | constant (value : Literal)
  | eval (expression : String)
  | call (function : Function)
  | commit (target : String)

structure Task where
  work : Work
  args : List Arg
  /-- Tasks that have to finish first without feeding a value in. -/
  after : List String

-- ---------------------------------------------------------------------------
-- Arguments
-- ---------------------------------------------------------------------------

mutual

/-- Whether two arguments are the same, with numbers compared as doubles. -/
def Arg.beq : Arg → Arg → Bool
  | .ref a, .ref b => a == b
  | .column a, .column b => a == b
  | .literal a, .literal b => a == b
  | .absent, .absent => true
  | .tuple as, .tuple bs => Arg.beqAll as bs
  | _, _ => false

def Arg.beqAll : List Arg → List Arg → Bool
  | [], [] => true
  | a :: as, b :: bs => a.beq b && Arg.beqAll as bs
  | _, _ => false

end

instance : BEq Arg := ⟨Arg.beq⟩

mutual

/-- The tasks an argument refers to, with repetitions. -/
def Arg.refs : Arg → List String
  | .ref task => [task]
  | .tuple items => Arg.refsAll items
  | .column _ | .literal _ | .absent => []

def Arg.refsAll : List Arg → List String
  | [] => []
  | a :: as => a.refs ++ Arg.refsAll as

end

mutual

/-- The variables an argument reads, with repetitions. -/
def Arg.columns : Arg → List String
  | .column name => [name]
  | .tuple items => Arg.columnsAll items
  | .ref _ | .literal _ | .absent => []

def Arg.columnsAll : List Arg → List String
  | [] => []
  | a :: as => a.columns ++ Arg.columnsAll as

end

/-- The value of a literal. -/
def Literal.value : Literal → Value
  | .number x => .scalar x
  | .text s => .text s
  | .bool b => .scalar (flag b)

namespace Task

/-- A task that nothing orders yet. -/
def of (work : Work) (args : List Arg) : Task := ⟨work, args, []⟩

def constant (value : Literal) : Task := of (.constant value) []

/-- The evaluation of a text that reads the given variables. -/
def eval (expression : String) (columns : List String) : Task :=
  of (.eval expression) (columns.map .column)

def call (function : Function) (args : List Arg) : Task := of (.call function) args

/-- The binding of a task's result to a variable. -/
def commit (target source : String) : Task := of (.commit target) [.ref source]

/-- A short text for diagrams. -/
def label (t : Task) : String :=
  match t.work with
  | .constant value => value.render
  | .eval expression => expression
  | .call function => function.name ++ "()"
  | .commit target => target ++ " ="

/-- The tasks whose results the arguments ask for, with repetitions. -/
def refs (t : Task) : List String := Arg.refsAll t.args

/-- The variables the arguments read, with repetitions. -/
def columns (t : Task) : List String := Arg.columnsAll t.args

/-- The tasks this one waits for: those its arguments refer to, then those it only comes
after. -/
def dependencies (t : Task) : List String :=
  t.refs ++ (t.after.filter (· ∉ t.refs)).eraseDups

/-- Whether the task reads `name`, as a result or as a variable, or comes after it. -/
def mentions (t : Task) (name : String) : Bool :=
  decide (name ∈ t.refs) || decide (name ∈ t.columns) || decide (name ∈ t.after)

/-- The variable a commit binds. -/
def committed? (t : Task) : Option String :=
  match t.work with
  | .commit target => some target
  | _ => none

/-- Whether two tasks are the same, functions by registration and numbers as doubles. -/
def same (s t : Task) : Bool :=
  let work := match s.work, t.work with
    | .constant a, .constant b => a == b
    | .eval a, .eval b => a == b
    | .call f, .call g => f.same g
    | .commit a, .commit b => a == b
    | _, _ => false
  work && s.args == t.args && s.after == t.after

end Task

-- ---------------------------------------------------------------------------
-- Running a task
-- ---------------------------------------------------------------------------

/-- How the texts of eval tasks are evaluated. -/
abbrev Evaluator : Type := String → Environment → Answer Value

/-- The evaluator that makes one pass over all columns. -/
def Evaluator.onePass : Evaluator := fun text env =>
  (evaluateText text env).mapError EvalError.asFailure

mutual

/-- The value of an argument, given an environment and the results of other tasks. -/
def Arg.resolve (env : Environment) (results : String → Option Value) : Arg → Answer Value
  | .ref task =>
    match results task with
    | some v => .ok v
    | none => .error (.error (.missingResult task))
  | .column name =>
    match env.get? name with
    | some v => .ok v
    | none => .error (.error (.unbound name))
  | .literal value => .ok value.value
  | .absent => .ok .nothing
  | .tuple items => do return .tuple (← Arg.resolveAll env results items)

def Arg.resolveAll (env : Environment) (results : String → Option Value) :
    List Arg → Answer (List Value)
  | [] => .ok []
  | a :: as => do
    let v ← a.resolve env results
    let vs ← Arg.resolveAll env results as
    return v :: vs

end

/-- The result of a task and the environment it leaves. Only a commit changes the
environment, and only if it has a result. -/
def Task.run (evaluator : Evaluator) (results : String → Option Value) (env : Environment)
    (t : Task) : Answer (Value × Environment) :=
  match t.work with
  | .constant value => .ok (value.value, env)
  | .eval expression => do return (← evaluator expression env, env)
  | .call function => do
    let args ← Arg.resolveAll env results t.args
    return (← function.apply args, env)
  | .commit target =>
    match t.args with
    | [] => .error (.error (.noSource target))
    | source :: _ => do
      let v ← source.resolve env results
      return (v, env.insert target v)

end ColumnFlow
