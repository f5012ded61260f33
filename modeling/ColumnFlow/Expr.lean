/-!
# Expressions

The syntax of column expressions: literals, column names, calls and operators. A name or
a call may carry one subscript. An expression without calls and subscripts is pure and
can be evaluated in one pass over its columns.
-/

namespace ColumnFlow

/-- A literal of an expression. `==` compares numbers as doubles. -/
inductive Literal where
  | number (x : Float)
  | text (s : String)
  | bool (b : Bool)
deriving BEq

inductive BinaryOp where
  | add | sub | mul | div | floorDiv | mod | pow
  | eq | ne | lt | le | gt | ge
  | and | or | xor
deriving DecidableEq, Repr

inductive UnaryOp where
  | neg | pos | invert
deriving DecidableEq, Repr

namespace BinaryOp

/-- The operators, in the order of the syntax. -/
def all : List BinaryOp :=
  [.add, .sub, .mul, .div, .floorDiv, .mod, .pow,
    .eq, .ne, .lt, .le, .gt, .ge, .and, .or, .xor]

/-- The operator as written in an expression. -/
def symbol : BinaryOp → String
  | .add => "+"
  | .sub => "-"
  | .mul => "*"
  | .div => "/"
  | .floorDiv => "//"
  | .mod => "%"
  | .pow => "**"
  | .eq => "=="
  | .ne => "!="
  | .lt => "<"
  | .le => "<="
  | .gt => ">"
  | .ge => ">="
  | .and => "&"
  | .or => "|"
  | .xor => "^"

/-- The name under which the operator is registered as a function. -/
def functionName : BinaryOp → String
  | .add => "add"
  | .sub => "sub"
  | .mul => "mul"
  | .div => "div"
  | .floorDiv => "floordiv"
  | .mod => "mod"
  | .pow => "pow"
  | .eq => "eq"
  | .ne => "ne"
  | .lt => "lt"
  | .le => "le"
  | .gt => "gt"
  | .ge => "ge"
  | .and => "and"
  | .or => "or"
  | .xor => "xor"

/-- Binding strength; higher binds tighter. -/
def precedence : BinaryOp → Nat
  | .eq | .ne | .lt | .le | .gt | .ge => 1
  | .or => 2
  | .xor => 3
  | .and => 4
  | .add | .sub => 5
  | .mul | .div | .floorDiv | .mod => 6
  | .pow => 8

end BinaryOp

namespace UnaryOp

/-- The operators, in the order of the syntax. -/
def all : List UnaryOp := [.neg, .pos, .invert]

/-- The operator as written in an expression. -/
def symbol : UnaryOp → String
  | .neg => "-"
  | .pos => "+"
  | .invert => "~"

/-- The name under which the operator is registered as a function. -/
def functionName : UnaryOp → String
  | .neg => "neg"
  | .pos => "pos"
  | .invert => "invert"

end UnaryOp

mutual

/-- An expression. -/
inductive Expr where
  | literal (value : Literal)
  | symbol (name : String) (subscript : Option Subscript)
  | call (name : String) (arguments : List Expr) (subscript : Option Subscript)
  | binary (op : BinaryOp) (left right : Expr)
  | unary (op : UnaryOp) (operand : Expr)

/-- What stands between the brackets after a name or a call. -/
inductive Subscript where
  | index (position : Expr)
  | slice (lower upper step : Option Expr)

end

instance : Inhabited Expr := ⟨.literal (.bool false)⟩

namespace Expr

/-- The expression that reads one column. -/
def column (name : String) : Expr := .symbol name none

/-- No call and no subscript occurs in the expression. -/
def isPure : Expr → Bool
  | .literal _ => true
  | .symbol _ subscript => subscript.isNone
  | .call .. => false
  | .binary _ left right => left.isPure && right.isPure
  | .unary _ operand => operand.isPure

end Expr

-- ---------------------------------------------------------------------------
-- Equality
-- ---------------------------------------------------------------------------

mutual

/-- Whether two expressions are the same, with numbers compared as doubles. -/
def Expr.beq : Expr → Expr → Bool
  | .literal a, .literal b => a == b
  | .symbol a s, .symbol b t => a == b && Subscript.beq? s t
  | .call a xs s, .call b ys t => a == b && Expr.beqAll xs ys && Subscript.beq? s t
  | .binary f a b, .binary g c d => f == g && a.beq c && b.beq d
  | .unary f a, .unary g b => f == g && a.beq b
  | _, _ => false

def Expr.beqAll : List Expr → List Expr → Bool
  | [], [] => true
  | a :: as, b :: bs => a.beq b && Expr.beqAll as bs
  | _, _ => false

def Expr.beq? : Option Expr → Option Expr → Bool
  | none, none => true
  | some a, some b => a.beq b
  | _, _ => false

def Subscript.beq : Subscript → Subscript → Bool
  | .index a, .index b => a.beq b
  | .slice a b c, .slice x y z => Expr.beq? a x && Expr.beq? b y && Expr.beq? c z
  | _, _ => false

def Subscript.beq? : Option Subscript → Option Subscript → Bool
  | none, none => true
  | some s, some t => s.beq t
  | _, _ => false

end

instance : BEq Expr := ⟨Expr.beq⟩

instance : BEq Subscript := ⟨Subscript.beq⟩

-- ---------------------------------------------------------------------------
-- Columns read by an expression
-- ---------------------------------------------------------------------------

mutual

/-- The column names of an expression from left to right, with repetitions. -/
def Expr.occurrences : Expr → List String
  | .literal _ => []
  | .symbol name subscript => name :: Subscript.occurrences? subscript
  | .call _ arguments subscript =>
    Expr.occurrencesAll arguments ++ Subscript.occurrences? subscript
  | .binary _ left right => left.occurrences ++ right.occurrences
  | .unary _ operand => operand.occurrences

def Expr.occurrencesAll : List Expr → List String
  | [] => []
  | e :: es => e.occurrences ++ Expr.occurrencesAll es

def Expr.occurrences? : Option Expr → List String
  | none => []
  | some e => e.occurrences

def Subscript.occurrences : Subscript → List String
  | .index position => position.occurrences
  | .slice lower upper step =>
    Expr.occurrences? lower ++ Expr.occurrences? upper ++ Expr.occurrences? step

def Subscript.occurrences? : Option Subscript → List String
  | none => []
  | some s => s.occurrences

end

/-- The column names of an expression, in the order of first occurrence. -/
def Expr.symbols (e : Expr) : List String := e.occurrences.eraseDups

end ColumnFlow
