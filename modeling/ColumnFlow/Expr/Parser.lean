import ColumnFlow.Expr
import ColumnFlow.Expr.Token
import ColumnFlow.Reading

/-!
# Reading an expression

One function for each rule of the grammar, from the loosest to the tightest: comparison,
the chains of left-grouping operators, unary operators, powers, subscripts and the atoms.
A rule reads the front of a list of tokens and returns what is left, which is shorter
than what it was given; that is why the rules terminate. A rule that refuses says why
and which tokens are unread, and `Expr.parse` turns these into a byte offset.
-/

namespace ColumnFlow

/-- Why a rule refuses, and the tokens from the place of the error on. -/
structure Refusal where
  reason : Reason
  unread : List Token

/-- The answer of a rule that leaves fewer than `bound` tokens. -/
abbrev Parsed (α : Type) (bound : Nat) : Type := Except Refusal (Reading Token α bound)

/-- The levels of left-grouping operators, loosest first. -/
inductive Level where
  | or
  | xor
  | and
  | sum
  | product
deriving DecidableEq, Repr

namespace Level

/-- The operator of a level that a token stands for. -/
def operator? : Level → Token → Option BinaryOp
  | .or, .mark .pipe => some .or
  | .xor, .mark .caret => some .xor
  | .and, .mark .amp => some .and
  | .sum, .mark .plus => some .add
  | .sum, .mark .minus => some .sub
  | .product, .mark .star => some .mul
  | .product, .mark .slash => some .div
  | .product, .mark .slashSlash => some .floorDiv
  | .product, .mark .percent => some .mod
  | _, _ => none

/-- The number of levels from this one on. -/
def height : Level → Nat
  | .or => 5
  | .xor => 4
  | .and => 3
  | .sum => 2
  | .product => 1

end Level

/-- The comparison a token stands for. -/
def comparison? : Token → Option BinaryOp
  | .mark .eq => some .eq
  | .mark .ne => some .ne
  | .mark .lt => some .lt
  | .mark .le => some .le
  | .mark .gt => some .gt
  | .mark .ge => some .ge
  | _ => none

/-- The unary operator a token stands for. -/
def unary? : Token → Option UnaryOp
  | .mark .minus => some .neg
  | .mark .plus => some .pos
  | .mark .tilde => some .invert
  | _ => none

/-- Words that other notations use as operators and that no name starts with. -/
def keywords : List String := ["and", "or", "not", "if", "else", "lambda", "for", "in", "is"]

/-- Names and calls keep their first subscript; everything else is sliced by `slice`. -/
def Expr.subscript (s : Subscript) : Expr → Expr
  | .symbol name none => .symbol name (some s)
  | .call name arguments none => .call name arguments (some s)
  | e => .call "slice" [e] (some s)

-- ---------------------------------------------------------------------------
-- Rules without recursion
-- ---------------------------------------------------------------------------

/-- The next token has to be `m`. -/
def expectMark (m : Mark) (ts : List Token) : Parsed Unit ts.length :=
  match ts with
  | [] => .error ⟨.expected m none, []⟩
  | t :: r =>
    if t = .mark m then .ok ⟨(), r, Nat.lt_succ_self _⟩
    else .error ⟨.expected m (some t), t :: r⟩

/-- The rest of a dotted name that starts with `name`. -/
def dottedName (name : String) : (ts : List Token) → Parsed String (ts.length + 1)
  | .mark .dot :: .name part :: r =>
    (dottedName (name ++ "." ++ part) r).map fun x =>
      ⟨x.value, x.rest, by have := x.shorter; simp only [List.length_cons]; omega⟩
  | .mark .dot :: _ :: r => .error ⟨.expectedName, r⟩
  | [.mark .dot] => .error ⟨.expectedName, []⟩
  | ts => .ok ⟨name, ts, Nat.lt_succ_self _⟩

-- ---------------------------------------------------------------------------
-- The grammar
-- ---------------------------------------------------------------------------

namespace Parser

mutual

/-- At most one comparison between two chains of the loosest level. -/
def comparison (ts : List Token) : Parsed Expr ts.length := do
  let left ← chain .or ts
  match h : left.rest with
  | [] => return left
  | t :: r =>
    match comparison? t with
    | none => return left
    | some op =>
      let right ← chain .or r
      if right.rest.head?.any fun u => (comparison? u).isSome then
        .error ⟨.chainedComparison, right.rest⟩
      else
        return ⟨.binary op left.value right.value, right.rest, by
          have := left.shorter; have := right.shorter; simp_all; omega⟩
termination_by 32 * ts.length + 14
decreasing_by
  · simp [Level.height]
  · have := left.shorter; simp_all [Level.height]; omega

/-- Operands of a level, grouped to the left. -/
def chain (level : Level) (ts : List Token) : Parsed Expr ts.length := do
  let first ← operand level ts
  let all ← chainTail level first.value first.rest
  return ⟨all.value, all.rest, by have := first.shorter; have := all.shorter; omega⟩
termination_by 32 * ts.length + 2 * level.height + 3
decreasing_by
  · omega
  · have := first.shorter; omega

/-- Further operands of a level after the expression `left`. -/
def chainTail (level : Level) (left : Expr) (ts : List Token) : Parsed Expr (ts.length + 1) :=
  match ts with
  | [] => .ok ⟨left, [], by simp⟩
  | t :: r =>
    match level.operator? t with
    | none => .ok ⟨left, t :: r, by simp⟩
    | some op => do
      let right ← operand level r
      let all ← chainTail level (.binary op left right.value) right.rest
      return ⟨all.value, all.rest, by
        have := right.shorter; have := all.shorter; simp only [List.length_cons]; omega⟩
termination_by 32 * ts.length
decreasing_by
  · have : level.height ≤ 5 := by cases level <;> decide
    simp only [List.length_cons]; omega
  · have := right.shorter; simp only [List.length_cons]; omega

/-- An operand of a level: a chain of the next level, or a unary expression. -/
def operand (level : Level) (ts : List Token) : Parsed Expr ts.length :=
  match level with
  | .or => chain .xor ts
  | .xor => chain .and ts
  | .and => chain .sum ts
  | .sum => chain .product ts
  | .product => unary ts
termination_by 32 * ts.length + 2 * level.height + 2
decreasing_by all_goals simp [Level.height]

/-- Unary operators in front of a power. -/
def unary (ts : List Token) : Parsed Expr ts.length :=
  match ts with
  | [] => power []
  | t :: r =>
    match unary? t with
    | none => power (t :: r)
    | some op => do
      let x ← unary r
      return ⟨.unary op x.value, x.rest, by
        have := x.shorter; simp only [List.length_cons]; omega⟩
termination_by 32 * ts.length + 3
decreasing_by all_goals simp only [List.length_cons, List.length_nil]; omega

/-- A subscripted atom, or one raised to a unary expression. -/
def power (ts : List Token) : Parsed Expr ts.length := do
  let base ← postfixed ts
  match h : base.rest with
  | .mark .starStar :: r =>
    let exponent ← unary r
    return ⟨.binary .pow base.value exponent.value, exponent.rest, by
      have := base.shorter; have := exponent.shorter; simp_all; omega⟩
  | _ => return base
termination_by 32 * ts.length + 2
decreasing_by
  · omega
  · have := base.shorter; simp_all; omega

/-- An atom with the subscripts after it. -/
def postfixed (ts : List Token) : Parsed Expr ts.length := do
  let atom ← primary ts
  let all ← subscripts atom.value atom.rest
  return ⟨all.value, all.rest, by have := atom.shorter; have := all.shorter; omega⟩
termination_by 32 * ts.length + 1
decreasing_by
  · omega
  · have := atom.shorter; omega

/-- The subscripts after the expression `e`. -/
def subscripts (e : Expr) (ts : List Token) : Parsed Expr (ts.length + 1) :=
  match ts with
  | .mark .leftBracket :: r => do
    let s ← subscript r
    let closed ← expectMark .rightBracket s.rest
    let all ← subscripts (e.subscript s.value) closed.rest
    return ⟨all.value, all.rest, by
      have := s.shorter; have := closed.shorter; have := all.shorter
      simp only [List.length_cons]; omega⟩
  | ts => .ok ⟨e, ts, by simp⟩
termination_by 32 * ts.length
decreasing_by
  · simp only [List.length_cons]; omega
  · have := s.shorter; have := closed.shorter; simp only [List.length_cons]; omega

/-- What stands between brackets: a position, or parts separated by colons. -/
def subscript (ts : List Token) : Parsed Subscript (ts.length + 1) := do
  let lower ← slicePart ts
  match h : lower.rest with
  | .mark .colon :: r =>
    let upper ← slicePart r
    match h' : upper.rest with
    | .mark .colon :: r' =>
      let step ← slicePart r'
      return ⟨.slice lower.value upper.value step.value, step.rest, by
        have := lower.shorter; have := upper.shorter; have := step.shorter
        simp_all; omega⟩
    | _ =>
      return ⟨.slice lower.value upper.value none, upper.rest, by
        have := lower.shorter; have := upper.shorter; simp_all; omega⟩
  | rest =>
    match lower.value with
    | some position => return ⟨.index position, lower.rest, lower.shorter⟩
    | none => .error ⟨.emptySubscript, rest⟩
termination_by 32 * ts.length + 16
decreasing_by
  · omega
  · have := lower.shorter; simp_all; omega
  · have := lower.shorter; have := upper.shorter; simp_all; omega

/-- A part of a slice, which may be left out. -/
def slicePart (ts : List Token) : Parsed (Option Expr) (ts.length + 1) :=
  match ts with
  | .mark .colon :: r => .ok ⟨none, .mark .colon :: r, by simp⟩
  | .mark .rightBracket :: r => .ok ⟨none, .mark .rightBracket :: r, by simp⟩
  | ts => do
    let part ← comparison ts
    return ⟨some part.value, part.rest, by have := part.shorter; omega⟩
termination_by 32 * ts.length + 15
decreasing_by omega

/-- A literal, a name, a call or an expression between parentheses. -/
def primary (ts : List Token) : Parsed Expr ts.length :=
  match ts with
  | [] => .error ⟨.unexpectedEnd, []⟩
  | .number x :: r => .ok ⟨.literal (.number x), r, by simp⟩
  | .text s :: r => .ok ⟨.literal (.text s), r, by simp⟩
  | .mark .leftParen :: r => do
    let e ← comparison r
    let closed ← expectMark .rightParen e.rest
    return ⟨e.value, closed.rest, by
      have := e.shorter; have := closed.shorter; simp only [List.length_cons]; omega⟩
  | .name word :: r =>
    if word = "True" then .ok ⟨.literal (.bool true), r, by simp⟩
    else if word = "False" then .ok ⟨.literal (.bool false), r, by simp⟩
    else if word ∈ keywords then .error ⟨.unsupportedKeyword word, .name word :: r⟩
    else do
      let name ← dottedName word r
      match h : name.rest with
      | .mark .leftParen :: r' =>
        let args ← arguments r'
        let closed ← expectMark .rightParen args.rest
        return ⟨.call name.value args.value none, closed.rest, by
          have := name.shorter; have := args.shorter; have := closed.shorter
          simp_all; omega⟩
      | _ =>
        return ⟨.symbol name.value none, name.rest, by
          have := name.shorter; simp only [List.length_cons]; omega⟩
  | .mark m :: r => .error ⟨.unexpectedToken (.mark m), .mark m :: r⟩
termination_by 32 * ts.length
decreasing_by
  · simp only [List.length_cons]; omega
  · have := name.shorter; simp_all; omega

/-- The arguments of a call up to its closing parenthesis, possibly none. -/
def arguments (ts : List Token) : Parsed (List Expr) (ts.length + 1) :=
  match ts with
  | .mark .rightParen :: r => .ok ⟨[], .mark .rightParen :: r, by simp⟩
  | ts => do
    let list ← argumentList ts
    return ⟨list.value, list.rest, by have := list.shorter; omega⟩
termination_by 32 * ts.length + 16
decreasing_by omega

/-- One or more arguments separated by commas. -/
def argumentList (ts : List Token) : Parsed (List Expr) ts.length := do
  let first ← comparison ts
  match h : first.rest with
  | .mark .comma :: r =>
    let others ← argumentList r
    return ⟨first.value :: others.value, others.rest, by
      have := first.shorter; have := others.shorter; simp_all; omega⟩
  | _ => return ⟨[first.value], first.rest, first.shorter⟩
termination_by 32 * ts.length + 15
decreasing_by
  · omega
  · have := first.shorter; simp_all; omega

end

end Parser

namespace Expr

/-- The expression that a list of tokens spells, all of them. -/
def ofTokens (ts : List Token) : Except Refusal Expr := do
  if ts.isEmpty then .error ⟨.emptyExpression, []⟩
  else
    let e ← Parser.comparison ts
    match e.rest with
    | [] => return e.value
    | .mark .assign :: _ => .error ⟨.assignment, e.rest⟩
    | .mark .semicolon :: _ => .error ⟨.severalExpressions, e.rest⟩
    | t :: _ => .error ⟨.unexpectedToken t, e.rest⟩

/-- The byte offset of the last `unread` tokens of a text; its length if there are none. -/
def offsetOf (lexemes : List Lexeme) (length unread : Nat) : Nat :=
  match lexemes.drop (lexemes.length - unread) with
  | [] => length
  | l :: _ => l.offset

/-- The expression of a text given by its characters. A text without tokens is refused at
its start. -/
def ofChars (cs : List Char) : Except SyntaxError Expr := do
  let lexemes ← Token.scan 0 cs
  match ofTokens (lexemes.map Lexeme.token) with
  | .ok e => return e
  | .error refusal =>
    let offset :=
      if lexemes.isEmpty then 0
      else offsetOf lexemes (byteLength cs) refusal.unread.length
    .error ⟨offset, refusal.reason⟩

/-- The expression of a text. -/
def parse (text : String) : Except SyntaxError Expr := ofChars text.toList

end Expr

end ColumnFlow
