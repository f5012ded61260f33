import ColumnFlow.Proofs.Except
import ColumnFlow.Proofs.Grammar

/-!
# Outcomes of the parser

The functions of `Parser` return what they read with a bound on what they leave. An outcome
is the same answer without the bound, and each function has one equation that says what its
outcome is in terms of the outcomes of others.
-/

namespace ColumnFlow

/-- What a rule has read and what it leaves, without the bound on its length. -/
def Parsed.outcome {α : Type} {bound : Nat} (x : Parsed α bound) :
    Except Refusal (α × List Token) :=
  x.map fun r => (r.value, r.rest)

namespace Parser

/-! ## Answers without bounds -/

@[simp] theorem outcome_ok {α : Type} {bound : Nat} (r : Reading Token α bound) :
    Parsed.outcome (.ok r) = .ok (r.value, r.rest) := rfl

/-- The outcome of two steps is that of the second, from what the first one left. -/
theorem outcome_bind {α β : Type} {n m : Nat} (x : Parsed α n)
    (f : Reading Token α n → Parsed β m) (g : α × List Token → Except Refusal (β × List Token))
    (h : ∀ r, (f r).outcome = g (r.value, r.rest)) :
    Parsed.outcome (x >>= f) = x.outcome >>= g := by
  cases x with
  | error e => rfl
  | ok r => exact h r

/-- A rule never returns more than it was given. -/
theorem outcome_shorter {α : Type} {bound : Nat} {x : Parsed α bound} {a : α}
    {rest : List Token} (h : x.outcome = .ok (a, rest)) : rest.length < bound := by
  cases x with
  | error e => cases h
  | ok r =>
    cases h
    exact r.shorter

theorem expectMark_outcome (m : Mark) (ts : List Token) :
    (expectMark m ts).outcome = match ts with
      | [] => .error ⟨.expected m none, []⟩
      | t :: r => if t = .mark m then .ok ((), r) else .error ⟨.expected m (some t), t :: r⟩ := by
  cases ts with
  | nil => rfl
  | cons t r =>
    simp only [expectMark]
    split <;> rfl

/-! ## Equations -/

theorem comparison_outcome (ts : List Token) :
    (comparison ts).outcome = (chain .or ts).outcome >>= fun (a, rest) =>
      match rest with
      | [] => .ok (a, [])
      | t :: r =>
        match comparison? t with
        | none => .ok (a, t :: r)
        | some op => (chain .or r).outcome >>= fun (b, rest) =>
          if rest.head?.any fun u => (comparison? u).isSome then
            .error ⟨.chainedComparison, rest⟩
          else .ok (.binary op a b, rest) := by
  rw [comparison]
  refine outcome_bind _ _ _ ?_
  rintro ⟨a, rest, hshorter⟩
  cases rest with
  | nil => rfl
  | cons t r =>
    dsimp only
    cases comparison? t with
    | none => rfl
    | some op =>
      refine outcome_bind _ _ _ ?_
      rintro ⟨b, rest, hshorter'⟩
      dsimp only
      split <;> rfl

theorem chain_outcome (level : Level) (ts : List Token) :
    (chain level ts).outcome =
      (operand level ts).outcome >>= fun (a, rest) => (chainTail level a rest).outcome := by
  rw [chain]
  refine outcome_bind _ _ _ ?_
  rintro ⟨a, rest, hshorter⟩
  dsimp only
  cases chainTail level a rest <;> rfl

theorem chainTail_nil (level : Level) (a : Expr) :
    (chainTail level a []).outcome = .ok (a, []) := by
  rw [chainTail]; rfl

/-- The loop of a chain looks at one token and goes on behind an operator of its level. -/
theorem chainTail_cons (level : Level) (a : Expr) (t : Token) (r : List Token) :
    (chainTail level a (t :: r)).outcome = match level.operator? t with
      | none => .ok (a, t :: r)
      | some op => (operand level r).outcome >>= fun (b, rest) =>
        (chainTail level (.binary op a b) rest).outcome := by
  rw [chainTail]
  cases level.operator? t with
  | none => rfl
  | some op =>
    refine outcome_bind _ _ _ ?_
    rintro ⟨b, rest, hshorter⟩
    dsimp only
    cases chainTail level (.binary op a b) rest <;> rfl

theorem operand_outcome (level : Level) (ts : List Token) :
    (operand level ts).outcome = match level with
      | .or => (chain .xor ts).outcome
      | .xor => (chain .and ts).outcome
      | .and => (chain .sum ts).outcome
      | .sum => (chain .product ts).outcome
      | .product => (unary ts).outcome := by
  cases level <;> rw [operand]

theorem unary_nil : (unary []).outcome = (power []).outcome := by
  rw [unary]

theorem unary_cons (t : Token) (r : List Token) :
    (unary (t :: r)).outcome = match unary? t with
      | none => (power (t :: r)).outcome
      | some op => (unary r).outcome >>= fun (a, rest) => .ok (.unary op a, rest) := by
  rw [unary]
  cases unary? t with
  | none => rfl
  | some op => exact outcome_bind _ _ _ fun _ => rfl

theorem power_outcome (ts : List Token) :
    (power ts).outcome = (postfixed ts).outcome >>= fun (a, rest) =>
      match rest with
      | .mark .starStar :: r =>
        (unary r).outcome >>= fun (b, rest) => .ok (.binary .pow a b, rest)
      | rest => .ok (a, rest) := by
  rw [power]
  refine outcome_bind _ _ _ ?_
  rintro ⟨a, rest, hshorter⟩
  dsimp only
  split
  · exact outcome_bind _ _ _ fun _ => rfl
  · rename_i hother
    split
    · exact (hother _ rfl).elim
    · rfl

theorem postfixed_outcome (ts : List Token) :
    (postfixed ts).outcome =
      (primary ts).outcome >>= fun (a, rest) => (subscripts a rest).outcome := by
  rw [postfixed]
  refine outcome_bind _ _ _ ?_
  rintro ⟨a, rest, hshorter⟩
  dsimp only
  cases subscripts a rest <;> rfl

/-- A bracket is followed by a subscript, a closing bracket and further subscripts. -/
theorem subscripts_bracket (e : Expr) (r : List Token) :
    (subscripts e (.mark .leftBracket :: r)).outcome =
      (subscript r).outcome >>= fun (s, rest) =>
        (expectMark .rightBracket rest).outcome >>= fun (_, rest) =>
          (subscripts (e.subscript s) rest).outcome := by
  rw [subscripts]
  refine outcome_bind _ _ _ ?_
  rintro ⟨s, rest, hshorter⟩
  refine outcome_bind _ _ _ ?_
  rintro ⟨_, rest', hshorter'⟩
  dsimp only
  cases subscripts (e.subscript s) rest' <;> rfl

theorem subscripts_other (e : Expr) (ts : List Token)
    (h : ∀ r, ts ≠ .mark .leftBracket :: r) : (subscripts e ts).outcome = .ok (e, ts) := by
  rw [subscripts]
  · rfl
  · exact fun r hr => h r hr

theorem subscript_outcome (ts : List Token) :
    (subscript ts).outcome = (slicePart ts).outcome >>= fun (a, rest) =>
      match rest with
      | .mark .colon :: r => (slicePart r).outcome >>= fun (b, rest') =>
        match rest' with
        | .mark .colon :: r' =>
          (slicePart r').outcome >>= fun (c, rest) => .ok (.slice a b c, rest)
        | rest' => .ok (.slice a b none, rest')
      | rest =>
        match a with
        | some position => .ok (.index position, rest)
        | none => .error ⟨.emptySubscript, rest⟩ := by
  rw [subscript]
  refine outcome_bind _ _ _ ?_
  rintro ⟨a, rest, hshorter⟩
  dsimp only
  split
  · refine outcome_bind _ _ _ ?_
    rintro ⟨b, rest', hshorter'⟩
    dsimp only
    split
    · exact outcome_bind _ _ _ fun _ => rfl
    · rename_i hother
      split
      · exact (hother _ rfl).elim
      · rfl
  · rename_i hother
    cases a with
    | some position =>
      dsimp only
      split
      · exact (hother _ rfl).elim
      · rfl
    | none =>
      dsimp only
      split
      · exact (hother _ rfl).elim
      · rfl

/-- Whether a part of a slice ends before it begins. -/
def endsPart (ts : List Token) : Prop :=
  ts.head? = some (.mark .colon) ∨ ts.head? = some (.mark .rightBracket)

instance (ts : List Token) : Decidable (endsPart ts) := inferInstanceAs (Decidable (_ ∨ _))

theorem slicePart_outcome (ts : List Token) :
    (slicePart ts).outcome =
      if endsPart ts then .ok (none, ts)
      else (comparison ts).outcome >>= fun (a, rest) => .ok (some a, rest) := by
  rw [slicePart.eq_def]
  split
  · rfl
  · rfl
  · rename_i hnotColon hnotBracket
    rw [if_neg]
    · exact outcome_bind _ _ _ fun _ => rfl
    · rintro (h | h)
      · obtain ⟨r, rfl⟩ := List.head?_eq_some_iff.1 h
        exact hnotColon r rfl
      · obtain ⟨r, rfl⟩ := List.head?_eq_some_iff.1 h
        exact hnotBracket r rfl

theorem argumentList_outcome (ts : List Token) :
    (argumentList ts).outcome = (comparison ts).outcome >>= fun (a, rest) =>
      match rest with
      | .mark .comma :: r =>
        (argumentList r).outcome >>= fun (as, rest) => .ok (a :: as, rest)
      | rest => .ok ([a], rest) := by
  rw [argumentList]
  refine outcome_bind _ _ _ ?_
  rintro ⟨a, rest, hshorter⟩
  dsimp only
  split
  · exact outcome_bind _ _ _ fun _ => rfl
  · rename_i hother
    split
    · exact (hother _ rfl).elim
    · rfl

theorem arguments_outcome (ts : List Token) :
    (arguments ts).outcome =
      if ts.head? = some (.mark .rightParen) then .ok ([], ts) else (argumentList ts).outcome := by
  rw [arguments.eq_def]
  split
  · rfl
  · rename_i hother
    rw [if_neg]
    · cases argumentList ts <;> rfl
    · intro h
      obtain ⟨r, rfl⟩ := List.head?_eq_some_iff.1 h
      exact hother r rfl

theorem primary_nil : (primary []).outcome = .error ⟨.unexpectedEnd, []⟩ := by
  rw [primary]; rfl

theorem primary_number (x : Float) (r : List Token) :
    (primary (.number x :: r)).outcome = .ok (.literal (.number x), r) := by
  rw [primary]; rfl

theorem primary_text (s : String) (r : List Token) :
    (primary (.text s :: r)).outcome = .ok (.literal (.text s), r) := by
  rw [primary]; rfl

theorem primary_leftParen (r : List Token) :
    (primary (.mark .leftParen :: r)).outcome =
      (comparison r).outcome >>= fun (a, rest) =>
        (expectMark .rightParen rest).outcome >>= fun (_, rest) => .ok (a, rest) := by
  rw [primary]
  refine outcome_bind _ _ _ ?_
  rintro ⟨a, rest, hshorter⟩
  exact outcome_bind _ _ _ fun _ => rfl

theorem primary_mark (m : Mark) (r : List Token) (h : m ≠ .leftParen) :
    (primary (.mark m :: r)).outcome = .error ⟨.unexpectedToken (.mark m), .mark m :: r⟩ := by
  rw [primary]
  · rfl
  · exact h

/-- A word is a truth value, a keyword that is refused, or the first part of a name. -/
theorem primary_name (word : String) (r : List Token) :
    (primary (.name word :: r)).outcome =
      if word = "True" then .ok (.literal (.bool true), r)
      else if word = "False" then .ok (.literal (.bool false), r)
      else if word ∈ keywords then .error ⟨.unsupportedKeyword word, .name word :: r⟩
      else (dottedName word r).outcome >>= fun (name, rest) =>
        match rest with
        | .mark .leftParen :: r' => (arguments r').outcome >>= fun (es, rest) =>
          (expectMark .rightParen rest).outcome >>= fun (_, rest) => .ok (.call name es none, rest)
        | rest => .ok (.symbol name none, rest) := by
  rw [primary]
  split
  · rfl
  split
  · rfl
  split
  · rfl
  refine outcome_bind _ _ _ ?_
  rintro ⟨name, rest, hshorter⟩
  dsimp only
  split
  · refine outcome_bind _ _ _ ?_
    rintro ⟨es, rest', hshorter'⟩
    exact outcome_bind _ _ _ fun _ => rfl
  · rename_i hother
    split
    · exact (hother _ rfl).elim
    · rfl

/-! ## Readings of rules -/

/-- The function of a rule, given `ts`, returns a phrase and leaves `rest`. -/
def Reads (ts rest : List Token) : Rule → Phrase → Prop
  | .comparison, .expr e => (comparison ts).outcome = .ok (e, rest)
  | .chain level, .expr e => (chain level ts).outcome = .ok (e, rest)
  | .unary, .expr e => (unary ts).outcome = .ok (e, rest)
  | .power, .expr e => (power ts).outcome = .ok (e, rest)
  | .postfixed, .expr e => (postfixed ts).outcome = .ok (e, rest)
  | .primary, .expr e => (primary ts).outcome = .ok (e, rest)
  | .subscript, .subscript s => (subscript ts).outcome = .ok (s, rest)
  | .slicePart, .slicePart part => (slicePart ts).outcome = .ok (part, rest)
  | .arguments, .arguments es => (arguments ts).outcome = .ok (es, rest)
  | .argumentList, .arguments es => (argumentList ts).outcome = .ok (es, rest)
  | _, _ => False

/-- The operand of a level is read as the rule of its operands says. -/
theorem operand_eq_ok_iff {level : Level} {ts rest : List Token} {e : Expr} :
    (operand level ts).outcome = .ok (e, rest) ↔ Reads ts rest level.operandRule (.expr e) := by
  rw [operand_outcome]
  cases level <;> rfl

theorem expectMark_eq_ok_iff {m : Mark} {ts rest : List Token} :
    (expectMark m ts).outcome = .ok ((), rest) ↔ ts = .mark m :: rest := by
  rw [expectMark_outcome]
  cases ts with
  | nil => simp
  | cons t r =>
    dsimp only
    split <;> simp_all

end Parser

end ColumnFlow
