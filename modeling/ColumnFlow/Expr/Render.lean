import ColumnFlow.Decimal.Layout
import ColumnFlow.Expr
import ColumnFlow.Text.Quoted

/-!
# The text of an expression

`Expr.render` writes an expression with only the parentheses that reading it back needs.
An operand is put between parentheses by comparing its binding strength with that of
the operator around it.
-/

namespace ColumnFlow

/-- The text of a literal. -/
def Literal.render : Literal → String
  | .number x => Layout.plain.writeFloat x
  | .text s => quote s
  | .bool true => "True"
  | .bool false => "False"

namespace Expr

/-- The binding strength of unary operators, looser than `**` alone. -/
def unaryStrength : Nat := 7

/-- The binding strength of names, calls, literals and parentheses. -/
def atomStrength : Nat := 9

/-- How strongly an expression holds together. A negative number starts with a sign and
so counts as a unary operator. -/
def strength : Expr → Nat
  | .binary op _ _ => op.precedence
  | .unary _ _ => unaryStrength
  | .literal (.number x) => if isNegative x then unaryStrength else atomStrength
  | _ => atomStrength

end Expr

namespace BinaryOp

/-- The least strength of a left operand that needs no parentheses. Chains of one level
group to the left, except that comparisons do not chain and `**` groups to the right. -/
def leftStrength (op : BinaryOp) : Nat :=
  if op = .pow ∨ op.precedence = 1 then op.precedence + 1 else op.precedence

/-- The least strength of a right operand that needs no parentheses. An exponent may
carry its own sign. -/
def rightStrength (op : BinaryOp) : Nat :=
  if op = .pow then Expr.unaryStrength else op.precedence + 1

end BinaryOp

/-- The text, between parentheses if the expression is weaker than its place asks. -/
def parenthesize (needed strength : Nat) (text : String) : String :=
  if strength < needed then "(" ++ text ++ ")" else text

mutual

/-- The text of an expression. -/
def Expr.render : Expr → String
  | .literal value => value.render
  | .symbol name subscript => name ++ Subscript.render? subscript
  | .call name arguments subscript =>
    name ++ "(" ++ ", ".intercalate (Expr.renderAll arguments) ++ ")" ++
      Subscript.render? subscript
  | .binary op left right =>
    parenthesize op.leftStrength left.strength left.render ++ " " ++ op.symbol ++ " " ++
      parenthesize op.rightStrength right.strength right.render
  | .unary op operand =>
    op.symbol ++ parenthesize Expr.unaryStrength operand.strength operand.render

def Expr.renderAll : List Expr → List String
  | [] => []
  | e :: es => e.render :: Expr.renderAll es

def Expr.render? : Option Expr → String
  | none => ""
  | some e => e.render

def Subscript.render : Subscript → String
  | .index position => "[" ++ position.render ++ "]"
  | .slice lower upper step =>
    "[" ++ Expr.render? lower ++ ":" ++ Expr.render? upper ++
      (if step.isSome then ":" ++ Expr.render? step else "") ++ "]"

def Subscript.render? : Option Subscript → String
  | none => ""
  | some s => s.render

end

end ColumnFlow
