import ColumnFlow.Graph

/-!
# Compiling expressions

An expression becomes a graph of tasks. Every largest pure subexpression is one eval
task, every literal on its own one constant, and each call, subscript and impure operator
one call of a function on the tasks of its parts. Names come from a supply that numbers
each category from zero; names drawn by a compilation that fails stay drawn.
-/

namespace ColumnFlow

-- ---------------------------------------------------------------------------
-- Names
-- ---------------------------------------------------------------------------

/-- How many names of each category have been drawn. -/
structure NameSupply where
  counters : Table Nat

namespace NameSupply

/-- The supply from which no name has been drawn. -/
def fresh : NameSupply := ⟨.empty⟩

/-- The name of a category with a number. -/
def name (category : String) (number : Nat) : String := category ++ "-" ++ toString number

/-- The next number of a category. -/
def count (s : NameSupply) (category : String) : Nat := (s.counters.get? category).getD 0

/-- Draw the next name of a category. -/
def next (s : NameSupply) (category : String) : String × NameSupply :=
  let n := s.count category
  (name category n, ⟨s.counters.insert category (n + 1)⟩)

/-- Number every category from zero again. Names drawn before belong to the graphs they were
used in. -/
def reset (s : NameSupply) : NameSupply := { s with counters := .empty }

/-- Drawing a name counts for its category and for no other. -/
theorem count_next (s : NameSupply) (category other : String) :
    (s.next category).2.count other =
      if other = category then s.count category + 1 else s.count other := by
  simp only [next, count, Table.get?_insert]
  split <;> simp

end NameSupply

-- ---------------------------------------------------------------------------
-- Compilation
-- ---------------------------------------------------------------------------

inductive CompileError where
  | unknownFunction (name : String)
  | graph (cause : GraphError)
deriving DecidableEq

def CompileError.message : CompileError → String
  | .unknownFunction name => s!"Unknown function '{name}'"
  | .graph cause => cause.message

/-- A graph under construction and the names still to be had. -/
structure Draft where
  names : NameSupply
  graph : Graph

/-- A step of compilation. The draft is kept when a step fails. -/
abbrev Compile (α : Type) : Type := ExceptT CompileError (StateM Draft) α

/-- Add a task under the next name of its category. -/
def emit (category : String) (t : Task) : Compile String := fun draft =>
  let (name, names) := draft.names.next category
  match draft.graph.add name t with
  | .ok graph => (.ok name, ⟨names, graph⟩)
  | .error e => (.error (.graph e), ⟨names, draft.graph⟩)

/-- The function registered under a name. -/
def lookup (registry : Registry) (name : String) : Compile Function :=
  match registry.get? name with
  | some f => return f
  | none => throw (.unknownFunction name)

/-- One eval task for a pure expression. -/
def emitEval (e : Expr) : Compile String := emit "eval" (.eval e.render e.symbols)

/-- One call task. -/
def emitCall (f : Function) (name : String) (args : List Arg) : Compile String :=
  emit ("func-" ++ name) (.call f args)

mutual

/-- The name of the task that holds the value of an expression. -/
def Expr.compile (registry : Registry) : Expr → Compile String
  | .literal value => emit "constant" (.constant value)
  | .symbol name none => emitEval (.column name)
  | .symbol name (some s) => do
    let f ← lookup registry "slice"
    let source ← emitEval (.column name)
    let extra ← s.compile registry
    emitCall f "slice" [.ref source, extra]
  | .call name arguments subscript => do
    let f ← lookup registry name
    let args ← Expr.compileAll registry arguments
    let extra ← Subscript.compile? registry subscript
    emitCall f name (args ++ extra.toList)
  | .binary op left right =>
    if left.isPure && right.isPure then emitEval (.binary op left right)
    else do
      let f ← lookup registry op.functionName
      let x ← left.compile registry
      let y ← right.compile registry
      emitCall f op.functionName [.ref x, .ref y]
  | .unary op operand =>
    if operand.isPure then emitEval (.unary op operand)
    else do
      let f ← lookup registry op.functionName
      let x ← operand.compile registry
      emitCall f op.functionName [.ref x]

def Expr.compileAll (registry : Registry) : List Expr → Compile (List Arg)
  | [] => return []
  | e :: es => do
    let task ← e.compile registry
    let tasks ← Expr.compileAll registry es
    return .ref task :: tasks

/-- A part of a slice as an argument. -/
def Expr.compile? (registry : Registry) : Option Expr → Compile Arg
  | none => return .absent
  | some e => do return .ref (← e.compile registry)

/-- A subscript as an argument: a position, or a triple. -/
def Subscript.compile (registry : Registry) : Subscript → Compile Arg
  | .index position => do return .ref (← position.compile registry)
  | .slice lower upper step => do
    let lower ← Expr.compile? registry lower
    let upper ← Expr.compile? registry upper
    let step ← Expr.compile? registry step
    return .tuple [lower, upper, step]

def Subscript.compile? (registry : Registry) : Option Subscript → Compile (Option Arg)
  | none => return none
  | some s => do return some (← s.compile registry)

end

/-- The graph of an expression and the task that holds its value. Names are drawn from
`names`, which is returned also when the compilation fails. -/
def Expr.buildWith (e : Expr) (names : NameSupply) (registry : Registry) :
    Except CompileError (Graph × String) × NameSupply :=
  match e.compile registry ⟨names, .empty⟩ with
  | (.ok output, draft) => (.ok (draft.graph, output), draft.names)
  | (.error e, draft) => (.error e, draft.names)

-- ---------------------------------------------------------------------------
-- Programs
-- ---------------------------------------------------------------------------

/-- An expression with its text and, once it is built, its graph and output task. Its tasks are
named from a supply of its own. -/
structure Program where
  text : String
  expr : Expr
  built? : Option (Graph × String)
  names : NameSupply

namespace Program

/-- The program of an expression that stands for a text, not built yet. -/
def ofText (text : String) (e : Expr) : Program := ⟨text, e, none, .fresh⟩

/-- The program of a text. -/
def parse (text : String) : Except SyntaxError Program := (Expr.parse text).map (ofText text)

/-- The program of an expression, whose text is the rendered one. -/
def ofExpr (e : Expr) : Program := ofText e.render e

/-- The output task, once built. -/
def output? (p : Program) : Option String := p.built?.map Prod.snd

/-- What was built. If nothing was, it is compiled now, with its names starting again. -/
def build (p : Program) (registry : Registry) :
    Except CompileError (Graph × String) × Program :=
  match p.built? with
  | some built => (.ok built, p)
  | none =>
    let (result, names) := p.expr.buildWith p.names.reset registry
    (result, { p with built? := result.toOption, names := names })

/-- The graph alone of what was built. -/
def toTasks (p : Program) (registry : Registry) : Except CompileError Graph × Program :=
  let (result, p) := p.build registry
  (result.map Prod.fst, p)

/-- Compile again, in place of what was built before. -/
def rebuild (p : Program) (registry : Registry) :
    Except CompileError (Graph × String) × Program :=
  { p with built? := none }.build registry

end Program

end ColumnFlow
