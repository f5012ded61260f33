import ColumnFlow.Expr.Parser

/-!
# The grammar of expressions

`Derives rule tokens phrase` says that a list of tokens, all of it, spells a phrase of the
grammar. The rules only put pieces side by side: they do not look ahead and leave nothing
unread. A token that can go on with what stands before it has a strength, and a rule leaves
off in front of the tokens that are weaker than itself.
-/

namespace ColumnFlow

/-! ## Names and subscripts -/

/-- The words that no name starts with: the keywords and the truth values. -/
def reservedWords : List String := "True" :: "False" :: keywords

/-- A word that is not reserved, followed by any number of words after points. -/
inductive DottedName : List Token → String → Prop where
  | word {w : String} : w ∉ reservedWords → DottedName [.name w] w
  | dotted {ts : List Token} {name part : String} :
      DottedName ts name → DottedName (ts ++ [.mark .dot, .name part]) (name ++ "." ++ part)

/-- Whether an expression is a name or a call without a subscript. -/
def Expr.isBare : Expr → Bool
  | .symbol _ none => true
  | .call _ _ none => true
  | _ => false

/-- Where a subscript goes: onto a bare name or call, or into a call of `slice` on
everything else. -/
inductive Subscripted (s : Subscript) : Expr → Expr → Prop where
  | symbol {name : String} : Subscripted s (.symbol name none) (.symbol name (some s))
  | call {name : String} {arguments : List Expr} :
      Subscripted s (.call name arguments none) (.call name arguments (some s))
  | slice {e : Expr} : e.isBare = false → Subscripted s e (.call "slice" [e] (some s))

theorem subscripted_iff {s : Subscript} {e e' : Expr} :
    Subscripted s e e' ↔ e' = e.subscript s := by
  constructor
  · intro h
    cases h with
    | symbol => rfl
    | call => rfl
    | slice h =>
      unfold Expr.subscript
      split
      · simp [Expr.isBare] at h
      · simp [Expr.isBare] at h
      · rfl
  · rintro rfl
    unfold Expr.subscript
    split
    · exact .symbol
    · exact .call
    · rename_i hnotSymbol hnotCall
      refine .slice ?_
      unfold Expr.isBare
      split
      · exact absurd rfl (hnotSymbol _)
      · exact absurd rfl (hnotCall _ _)
      · rfl

/-! ## Rules -/

/-- The rules of the grammar. -/
inductive Rule where
  | comparison
  | chain (level : Level)
  | unary
  | power
  | postfixed
  | primary
  | subscript
  | slicePart
  | arguments
  | argumentList

/-- What a rule yields. -/
inductive Phrase where
  | expr (e : Expr)
  | subscript (s : Subscript)
  | slicePart (part : Option Expr)
  | arguments (es : List Expr)

/-- The rule for the operands of a level. -/
def Level.operandRule : Level → Rule
  | .or => .chain .xor
  | .xor => .chain .and
  | .and => .chain .sum
  | .sum => .chain .product
  | .product => .unary

/-- Which tokens spell which phrase. -/
inductive Derives : Rule → List Token → Phrase → Prop where
  | single {ts : List Token} {e : Expr} :
      Derives (.chain .or) ts (.expr e) → Derives .comparison ts (.expr e)
  | compare {left right : List Token} {t : Token} {op : BinaryOp} {a b : Expr} :
      Derives (.chain .or) left (.expr a) → comparison? t = some op →
      Derives (.chain .or) right (.expr b) →
      Derives .comparison (left ++ t :: right) (.expr (.binary op a b))
  | first {level : Level} {ts : List Token} {e : Expr} :
      Derives level.operandRule ts (.expr e) → Derives (.chain level) ts (.expr e)
  | further {level : Level} {left right : List Token} {t : Token} {op : BinaryOp} {a b : Expr} :
      Derives (.chain level) left (.expr a) → level.operator? t = some op →
      Derives level.operandRule right (.expr b) →
      Derives (.chain level) (left ++ t :: right) (.expr (.binary op a b))
  | unsigned {ts : List Token} {e : Expr} :
      Derives .power ts (.expr e) → Derives .unary ts (.expr e)
  | signed {t : Token} {op : UnaryOp} {ts : List Token} {e : Expr} :
      unary? t = some op → Derives .unary ts (.expr e) →
      Derives .unary (t :: ts) (.expr (.unary op e))
  | base {ts : List Token} {e : Expr} :
      Derives .postfixed ts (.expr e) → Derives .power ts (.expr e)
  | raised {left right : List Token} {a b : Expr} :
      Derives .postfixed left (.expr a) → Derives .unary right (.expr b) →
      Derives .power (left ++ .mark .starStar :: right) (.expr (.binary .pow a b))
  | atom {ts : List Token} {e : Expr} :
      Derives .primary ts (.expr e) → Derives .postfixed ts (.expr e)
  | subscripted {ts inside : List Token} {e e' : Expr} {s : Subscript} :
      Derives .postfixed ts (.expr e) → Derives .subscript inside (.subscript s) →
      Subscripted s e e' →
      Derives .postfixed (ts ++ .mark .leftBracket :: (inside ++ [.mark .rightBracket])) (.expr e')
  | index {ts : List Token} {e : Expr} :
      Derives .comparison ts (.expr e) → Derives .subscript ts (.subscript (.index e))
  | bounds {lower upper : List Token} {a b : Option Expr} :
      Derives .slicePart lower (.slicePart a) → Derives .slicePart upper (.slicePart b) →
      Derives .subscript (lower ++ .mark .colon :: upper) (.subscript (.slice a b none))
  | stepped {lower upper step : List Token} {a b c : Option Expr} :
      Derives .slicePart lower (.slicePart a) → Derives .slicePart upper (.slicePart b) →
      Derives .slicePart step (.slicePart c) →
      Derives .subscript (lower ++ .mark .colon :: (upper ++ .mark .colon :: step))
        (.subscript (.slice a b c))
  | omitted : Derives .slicePart [] (.slicePart none)
  | given {ts : List Token} {e : Expr} :
      Derives .comparison ts (.expr e) → Derives .slicePart ts (.slicePart (some e))
  | number {x : Float} : Derives .primary [.number x] (.expr (.literal (.number x)))
  | text {s : String} : Derives .primary [.text s] (.expr (.literal (.text s)))
  | true : Derives .primary [.name "True"] (.expr (.literal (.bool true)))
  | false : Derives .primary [.name "False"] (.expr (.literal (.bool false)))
  | symbol {ts : List Token} {name : String} :
      DottedName ts name → Derives .primary ts (.expr (.symbol name none))
  | call {ts inside : List Token} {name : String} {es : List Expr} :
      DottedName ts name → Derives .arguments inside (.arguments es) →
      Derives .primary (ts ++ .mark .leftParen :: (inside ++ [.mark .rightParen]))
        (.expr (.call name es none))
  | parens {inside : List Token} {e : Expr} :
      Derives .comparison inside (.expr e) →
      Derives .primary (.mark .leftParen :: (inside ++ [.mark .rightParen])) (.expr e)
  | noArguments : Derives .arguments [] (.arguments [])
  | someArguments {ts : List Token} {es : List Expr} :
      Derives .argumentList ts (.arguments es) → Derives .arguments ts (.arguments es)
  | lastArgument {ts : List Token} {e : Expr} :
      Derives .comparison ts (.expr e) → Derives .argumentList ts (.arguments [e])
  | moreArguments {ts us : List Token} {e : Expr} {es : List Expr} :
      Derives .comparison ts (.expr e) → Derives .argumentList us (.arguments es) →
      Derives .argumentList (ts ++ .mark .comma :: us) (.arguments (e :: es))

/-! ## Strengths

The numbers are those of the operators: a comparison binds loosest, a subscript tighter than
every operator, and a point or a parenthesis after a name tightest of all. -/

/-- The strength of the operators of a level. -/
def Level.strength : Level → Nat
  | .or => 2
  | .xor => 3
  | .and => 4
  | .sum => 5
  | .product => 6

/-- How strongly a token holds on to what stands before it, if it can go on with that. -/
def Token.strength? : Token → Option Nat
  | .mark .eq | .mark .ne | .mark .lt | .mark .le | .mark .gt | .mark .ge => some 1
  | .mark .pipe => some 2
  | .mark .caret => some 3
  | .mark .amp => some 4
  | .mark .plus | .mark .minus => some 5
  | .mark .star | .mark .slash | .mark .slashSlash | .mark .percent => some 6
  | .mark .starStar => some 8
  | .mark .leftBracket => some 9
  | .mark .dot | .mark .leftParen => some 10
  | _ => none

/-- The strength below which a token ends a phrase of the rule. -/
def Rule.strength : Rule → Nat
  | .chain level => level.strength
  | .unary => 7
  | .power => 8
  | .postfixed => 9
  | .primary => 10
  | .comparison | .subscript | .slicePart | .arguments | .argumentList => 1

theorem strength_of_comparison? {t : Token} {op : BinaryOp} (h : comparison? t = some op) :
    t.strength? = some 1 := by
  unfold comparison? at h
  split at h <;> first | rfl | cases h

theorem strength_of_operator? {level : Level} {t : Token} {op : BinaryOp}
    (h : level.operator? t = some op) : t.strength? = some level.strength := by
  unfold Level.operator? at h
  split at h <;> first | rfl | cases h

/-- What follows a phrase of strength `n` does not go on with it. -/
def Stops (n : Nat) : List Token → Prop
  | [] => True
  | t :: _ => ∀ k, t.strength? = some k → k < n

theorem Stops.mono {n m : Nat} {rest : List Token} (h : Stops n rest) (hle : n ≤ m) :
    Stops m rest := by
  cases rest with
  | nil => trivial
  | cons t r => exact fun k hk => Nat.lt_of_lt_of_le (h k hk) hle

theorem stops_cons {n k : Nat} {t : Token} {r : List Token} (ht : t.strength? = some k)
    (hlt : k < n) : Stops n (t :: r) := by
  intro j hj
  rw [ht] at hj
  cases hj
  exact hlt

/-- A token that goes on with nothing ends every phrase. -/
theorem stops_of_none {n : Nat} {t : Token} {r : List Token} (ht : t.strength? = none) :
    Stops n (t :: r) := by
  intro k hk
  rw [ht] at hk
  cases hk

end ColumnFlow
