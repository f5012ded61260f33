import ColumnFlow.Proofs.Rendering

/-!
# Every pair of parentheses is needed

The parentheses around the operands of an expression are counted twice: those that its text has,
and those that any text needs which is read as the expression. The numbers are the same, so that a
text in which one pair is left out is not read as the expression. A parenthesis directly after a
name belongs to a call and is not counted.
-/

namespace ColumnFlow

/-! ## Texts with one pair less -/

/-- The text is that of the phrase, except that one operand which is written between parentheses
is written without them. -/
inductive Omits : Phrase → String → Prop where
  | left {op : BinaryOp} {a b : Expr} : a.strength < op.leftStrength →
      Omits (.expr (.binary op a b))
        (a.render ++ " " ++ op.symbol ++ " " ++ parenthesize op.rightStrength b.strength b.render)
  | right {op : BinaryOp} {a b : Expr} : b.strength < op.rightStrength →
      Omits (.expr (.binary op a b))
        (parenthesize op.leftStrength a.strength a.render ++ " " ++ op.symbol ++ " " ++ b.render)
  | operand {op : UnaryOp} {a : Expr} : a.strength < Expr.unaryStrength →
      Omits (.expr (.unary op a)) (op.symbol ++ a.render)
  | inLeft {op : BinaryOp} {a b : Expr} {text : String} : Omits (.expr a) text →
      Omits (.expr (.binary op a b))
        (parenthesize op.leftStrength a.strength text ++ " " ++ op.symbol ++ " " ++
          parenthesize op.rightStrength b.strength b.render)
  | inRight {op : BinaryOp} {a b : Expr} {text : String} : Omits (.expr b) text →
      Omits (.expr (.binary op a b))
        (parenthesize op.leftStrength a.strength a.render ++ " " ++ op.symbol ++ " " ++
          parenthesize op.rightStrength b.strength text)
  | inOperand {op : UnaryOp} {a : Expr} {text : String} : Omits (.expr a) text →
      Omits (.expr (.unary op a)) (op.symbol ++ parenthesize Expr.unaryStrength a.strength text)
  | ofSymbol {name : String} {s : Subscript} {text : String} : Omits (.subscript s) text →
      Omits (.expr (.symbol name (some s))) (name ++ text)
  | inCall {name : String} {es : List Expr} {s : Option Subscript} {text : String} :
      Omits (.arguments es) text →
      Omits (.expr (.call name es s)) (name ++ "(" ++ text ++ ")" ++ Subscript.render? s)
  | ofCall {name : String} {es : List Expr} {s : Subscript} {text : String} :
      Omits (.subscript s) text →
      Omits (.expr (.call name es (some s)))
        (name ++ "(" ++ ", ".intercalate (Expr.renderAll es) ++ ")" ++ text)
  | argument {before after : List Expr} {e : Expr} {text : String} : Omits (.expr e) text →
      Omits (.arguments (before ++ e :: after))
        (", ".intercalate (Expr.renderAll before ++ text :: Expr.renderAll after))
  | index {e : Expr} {text : String} : Omits (.expr e) text →
      Omits (.subscript (.index e)) ("[" ++ text ++ "]")
  | lower {e : Expr} {b c : Option Expr} {text : String} : Omits (.expr e) text →
      Omits (.subscript (.slice (some e) b c))
        ("[" ++ text ++ ":" ++ Expr.render? b ++
          (if c.isSome then ":" ++ Expr.render? c else "") ++ "]")
  | upper {a c : Option Expr} {e : Expr} {text : String} : Omits (.expr e) text →
      Omits (.subscript (.slice a (some e) c))
        ("[" ++ Expr.render? a ++ ":" ++ text ++
          (if c.isSome then ":" ++ Expr.render? c else "") ++ "]")
  | step {a b : Option Expr} {e : Expr} {text : String} : Omits (.expr e) text →
      Omits (.subscript (.slice a b (some e)))
        ("[" ++ Expr.render? a ++ ":" ++ Expr.render? b ++ (":" ++ text) ++ "]")

/-! ## Parentheses of expressions -/

mutual

/-- The number of operands of the expression that are written between parentheses. -/
def Expr.parens : Expr → Nat
  | .literal _ => 0
  | .symbol _ subscript => Subscript.parens? subscript
  | .call _ arguments subscript => Expr.parensAll arguments + Subscript.parens? subscript
  | .binary op left right =>
    left.parens + (if left.strength < op.leftStrength then 1 else 0) +
      (right.parens + if right.strength < op.rightStrength then 1 else 0)
  | .unary _ operand => operand.parens + if operand.strength < Expr.unaryStrength then 1 else 0

def Expr.parensAll : List Expr → Nat
  | [] => 0
  | e :: es => e.parens + Expr.parensAll es

def Expr.parens? : Option Expr → Nat
  | none => 0
  | some e => e.parens

def Subscript.parens : Subscript → Nat
  | .index position => position.parens
  | .slice lower upper step => Expr.parens? lower + Expr.parens? upper + Expr.parens? step

def Subscript.parens? : Option Subscript → Nat
  | none => 0
  | some s => s.parens

end

theorem Expr.parensAll_eq_sum (es : List Expr) : Expr.parensAll es = (es.map Expr.parens).sum := by
  induction es with
  | nil => rfl
  | cons e es ih => rw [Expr.parensAll, ih, List.map_cons, List.sum_cons]

/-- The parentheses of an expression, with those around it at a place that asks for a strength. -/
def Expr.parensAt (needed : Nat) (e : Expr) : Nat :=
  e.parens + if e.strength < needed then 1 else 0

/-- A place adds parentheses and never takes any away. -/
theorem Expr.parens_le_parensAt (needed : Nat) (e : Expr) : e.parens ≤ e.parensAt needed :=
  Nat.le_add_right _ _

/-- A place adds at most one pair. -/
theorem Expr.parensAt_le (needed : Nat) (e : Expr) : e.parensAt needed ≤ e.parens + 1 := by
  unfold parensAt
  split <;> omega

/-- The more strength a place asks for, the more parentheses its operand has. -/
theorem Expr.parensAt_mono {n m : Nat} {e : Expr} (hle : n ≤ m) : e.parensAt n ≤ e.parensAt m := by
  unfold parensAt
  split <;> split <;> omega

theorem Expr.parensAt_of_le {n : Nat} {e : Expr} (hstrong : n ≤ e.strength) :
    e.parensAt n = e.parens := by
  rw [parensAt, if_neg (Nat.not_lt.2 hstrong), Nat.add_zero]

/-- The parentheses of a phrase at a place that asks for a strength. -/
def Phrase.parensAt (needed : Nat) : Phrase → Nat
  | .expr e => e.parensAt needed
  | .subscript s => s.parens
  | .slicePart part => Expr.parens? part
  | .arguments es => Expr.parensAll es

/-! ## Parentheses of tokens -/

/-- Whether a token is a word. -/
def Token.isName : Token → Bool
  | .name _ => true
  | _ => false

/-- The number of opening parentheses that do not stand directly after a word. -/
def groupings (afterName : Bool) : List Token → Nat
  | [] => 0
  | t :: ts =>
    (if t = .mark .leftParen ∧ afterName = false then 1 else 0) + groupings t.isName ts

/-- Whether a token stands between others without being counted: a mark that opens no
parenthesis. -/
def Token.divides : Token → Bool
  | .mark .leftParen => false
  | .mark _ => true
  | _ => false

section

variable {ts us : List Token} {t : Token} {name : String}

theorem divides_of_comparison? {op : BinaryOp} (h : comparison? t = some op) : t.divides := by
  unfold comparison? at h
  split at h <;> first | rfl | cases h

theorem divides_of_operator? {level : Level} {op : BinaryOp} (h : level.operator? t = some op) :
    t.divides := by
  unfold Level.operator? at h
  split at h <;> first | rfl | cases h

theorem divides_of_unary? {op : UnaryOp} (h : unary? t = some op) : t.divides := by
  unfold unary? at h
  split at h <;> first | rfl | cases h

/-- After a token that divides, the count goes on as at the start of a text. -/
theorem groupings_cons (hdivides : t.divides) (afterName : Bool) (ts : List Token) :
    groupings afterName (t :: ts) = groupings false ts := by
  have hother : t ≠ .mark .leftParen := by
    rintro rfl
    cases hdivides
  have hnoName : t.isName = false := by
    cases t with
    | name => cases hdivides
    | _ => rfl
  rw [groupings, if_neg fun h => hother h.1, hnoName, Nat.zero_add]

/-- The sides of a mark are counted on their own. -/
theorem groupings_append (hdivides : t.divides) (afterName : Bool) (ts us : List Token) :
    groupings afterName (ts ++ t :: us) = groupings afterName ts + groupings false us := by
  induction ts generalizing afterName with
  | nil => rw [List.nil_append, groupings_cons hdivides, groupings, Nat.zero_add]
  | cons s ts ih => rw [List.cons_append, groupings, groupings, ih, Nat.add_assoc]

/-- A token that divides adds nothing when it comes last. -/
theorem groupings_close (hdivides : t.divides) (ts : List Token) :
    groupings false (ts ++ [t]) = groupings false ts := by
  rw [groupings_append hdivides, groupings, Nat.add_zero]

/-- Parentheses that no name comes before are one more than those between them. -/
theorem groupings_parens (ts : List Token) :
    groupings false (.mark .leftParen :: (ts ++ [.mark .rightParen])) = groupings false ts + 1 := by
  rw [groupings, if_pos ⟨rfl, rfl⟩, Nat.add_comm]
  exact congrArg (· + 1) (groupings_close rfl ts)

/-- A name has no parentheses of its own. -/
theorem groupings_dottedName (hnamed : DottedName ts name) : groupings false ts = 0 := by
  induction hnamed with
  | word => rfl
  | dotted _ ih =>
    rw [groupings_append rfl, ih]
    rfl

/-- The parenthesis after a name opens the arguments of a call. -/
theorem groupings_call (hnamed : DottedName ts name) (us : List Token) :
    groupings false (ts ++ .mark .leftParen :: us) = groupings false us := by
  have hword (w : String) :
      groupings false (.name w :: .mark .leftParen :: us) = groupings false us := by
    simp [groupings, Token.isName]
  cases hnamed with
  | word => exact hword _
  | dotted hnamed =>
    rw [List.append_assoc, List.cons_append, groupings_append rfl, groupings_dottedName hnamed,
      Nat.zero_add]
    exact hword _

end

/-! ## What a text needs -/

/-- The strength that a rule asks of an expression without parentheses around it. -/
def Rule.needed (rule : Rule) : Nat := min rule.strength Expr.atomStrength

/-- The places beside an operator ask for the strengths of the rules that read them. -/
theorem strengths_of_comparison? {t : Token} {op : BinaryOp} (h : comparison? t = some op) :
    op.precedence = Rule.comparison.needed ∧ op.leftStrength = (Rule.chain .or).needed ∧
      op.rightStrength = (Rule.chain .or).needed := by
  unfold comparison? at h
  split at h <;> cases h <;> decide

/-- An operator read at a level is as strong as its rule, and so are its operands. -/
theorem strengths_of_operator? {level : Level} {t : Token} {op : BinaryOp}
    (h : level.operator? t = some op) :
    op.precedence = (Rule.chain level).needed ∧ op.leftStrength = (Rule.chain level).needed ∧
      op.rightStrength = level.operandRule.needed := by
  unfold Level.operator? at h
  split at h <;> cases h <;> decide

theorem strength_subscripted {s : Subscript} {e e' : Expr} (h : Subscripted s e e') :
    e'.strength = Expr.atomStrength := by
  cases h <;> rfl

/-- A subscript keeps its own parentheses and those of the expression before it. -/
theorem parens_subscripted {s : Subscript} {e e' : Expr} (h : Subscripted s e e') :
    e'.parens = e.parens + s.parens := by
  cases h <;> simp [Expr.parens, Expr.parensAll, Subscript.parens?]

/-- An operator between operands that hold their parentheses. -/
theorem parensAt_binary_le {op : BinaryOp} {a b : Expr} {left right : List Token} {t : Token}
    {n : Nat} (hown : n ≤ op.precedence) (hdivides : t.divides)
    (ha : a.parensAt op.leftStrength ≤ groupings false left)
    (hb : b.parensAt op.rightStrength ≤ groupings false right) :
    (Expr.binary op a b).parensAt n ≤ groupings false (left ++ t :: right) := by
  rw [Expr.parensAt_of_le hown, groupings_append hdivides]
  exact Nat.add_le_add ha hb

/-- Tokens that spell a phrase hold its parentheses: an operand that is too weak for its place does
not derive there without them. -/
theorem parensAt_le_groupings {rule : Rule} {ts : List Token} {phrase : Phrase}
    (hderived : Derives rule ts phrase) (hscanned : ∀ t ∈ ts, t.Scannable) :
    phrase.parensAt rule.needed ≤ groupings false ts := by
  -- Induction on the derivation. Each rule counts what its operands need at their own places, so
  -- that only parentheses and the count of an operand weaker than its place can differ by one.
  induction hderived with
  | single _ ih | unsigned _ ih | base _ ih =>
    exact Nat.le_trans (Expr.parensAt_mono (by decide)) (ih hscanned)
  | @first level _ _ _ ih =>
    refine Nat.le_trans (Expr.parensAt_mono ?_) (ih hscanned)
    cases level <;> decide
  | compare _ hmark _ ihl ihr =>
    obtain ⟨hown, hleft, hright⟩ := strengths_of_comparison? hmark
    simp only [List.forall_mem_append, List.forall_mem_cons] at hscanned
    refine parensAt_binary_le hown.ge (divides_of_comparison? hmark) ?_ ?_
    · exact hleft ▸ ihl hscanned.1
    · exact hright ▸ ihr hscanned.2.2
  | further _ hmark _ ihl ihr =>
    obtain ⟨hown, hleft, hright⟩ := strengths_of_operator? hmark
    simp only [List.forall_mem_append, List.forall_mem_cons] at hscanned
    refine parensAt_binary_le hown.ge (divides_of_operator? hmark) ?_ ?_
    · exact hleft ▸ ihl hscanned.1
    · exact hright ▸ ihr hscanned.2.2
  | signed hmark _ ih =>
    rw [groupings_cons (divides_of_unary? hmark)]
    exact ih (List.forall_mem_cons.1 hscanned).2
  | raised _ _ ihl ihr =>
    simp only [List.forall_mem_append, List.forall_mem_cons] at hscanned
    exact parensAt_binary_le (Nat.le_refl 8) rfl (ihl hscanned.1) (ihr hscanned.2.2)
  | atom _ ih | someArguments _ ih => exact ih hscanned
  | subscripted _ _ hjoined ihe ihs =>
    simp only [List.forall_mem_append, List.forall_mem_cons] at hscanned
    have hinner := ihe hscanned.1
    have hstrong : Rule.postfixed.needed ≤ _ := (strength_subscripted hjoined).ge
    change Expr.parensAt _ _ ≤ _
    rw [Expr.parensAt_of_le hstrong, parens_subscripted hjoined, groupings_append rfl,
      groupings_close rfl]
    exact Nat.add_le_add (Nat.le_trans (Expr.parens_le_parensAt _ _) hinner) (ihs hscanned.2.2.1)
  | index _ ih | given _ ih => exact Nat.le_trans (Expr.parens_le_parensAt _ _) (ih hscanned)
  | bounds _ _ ihl ihu =>
    simp only [List.forall_mem_append, List.forall_mem_cons] at hscanned
    rw [groupings_append rfl]
    change Expr.parens? _ + Expr.parens? _ ≤ _
    exact Nat.add_le_add (ihl hscanned.1) (ihu hscanned.2.2)
  | stepped _ _ _ ihl ihu ihs =>
    simp only [List.forall_mem_append, List.forall_mem_cons] at hscanned
    rw [groupings_append rfl, groupings_append rfl, ← Nat.add_assoc]
    exact Nat.add_le_add (Nat.add_le_add (ihl hscanned.1) (ihu hscanned.2.2.1))
      (ihs hscanned.2.2.2.2)
  | number =>
    have hpositive := Bool.eq_false_iff.1 (hscanned _ (List.mem_singleton_self _))
    have hstrong : Expr.atomStrength ≤ Expr.strength (.literal (.number _)) := (if_neg hpositive).ge
    exact Nat.le_trans (Expr.parensAt_of_le hstrong).le (Nat.zero_le _)
  | omitted | noArguments | text | true | false | symbol => exact Nat.zero_le _
  | call hnamed _ ih =>
    simp only [List.forall_mem_append, List.forall_mem_cons] at hscanned
    rw [groupings_call hnamed, groupings_close rfl]
    exact ih hscanned.2.2.1
  -- The one rule with parentheses of its own: they pay for the pair that a place may add.
  | parens _ ih =>
    simp only [List.forall_mem_append, List.forall_mem_cons] at hscanned
    rw [groupings_parens]
    have hinner := Nat.le_trans (Expr.parens_le_parensAt _ _) (ih hscanned.2.1)
    exact Nat.le_trans (Expr.parensAt_le _ _) (Nat.succ_le_succ hinner)
  | lastArgument _ ih => exact Nat.le_trans (Expr.parens_le_parensAt _ _) (ih hscanned)
  | moreArguments _ _ ihe ihs =>
    simp only [List.forall_mem_append, List.forall_mem_cons] at hscanned
    rw [groupings_append rfl]
    exact Nat.add_le_add (Nat.le_trans (Expr.parens_le_parensAt _ _) (ihe hscanned.1))
      (ihs hscanned.2.2)

/-! ## What a text has -/

/-- The text has so many parentheses around operands, in front of everything that does not go on
with a name or a number. -/
def Groups (text : String) (n : Nat) : Prop :=
  ∃ ts, groupings false ts = n ∧
    ∀ rest us, Boundary rest → Scans rest us → Scans (text.toList ++ rest) (ts ++ us)

/-- The text is one mark that opens no parenthesis, behind a name or a number too. -/
def Separates (text : String) : Prop :=
  ∃ t : Token, t.divides ∧ ∀ rest us, Scans rest us →
    Boundary (text.toList ++ rest) ∧ Scans (text.toList ++ rest) (t :: us)

theorem separates_binary (op : BinaryOp) : Separates (" " ++ op.symbol ++ " ") := by
  refine ⟨.mark op.mark, by cases op <;> rfl, fun rest us hbehind => ?_⟩
  have hoperator := scans_binaryOp op hbehind
  simp only [String.toList_append, List.append_assoc]
  exact ⟨boundary_cons rfl (by decide), hoperator⟩

theorem separates_unary (op : UnaryOp) : Separates op.symbol := by
  refine ⟨.mark op.mark, by cases op <;> rfl, fun rest us hbehind => ⟨?_, scans_unaryOp op hbehind⟩⟩
  cases op <;> exact boundary_cons rfl (by decide)

theorem separates_colon : Separates ":" :=
  ⟨.mark .colon, rfl, fun _ _ hbehind => ⟨boundary_cons rfl (by decide), scans_colon hbehind⟩⟩

theorem separates_comma : Separates ", " :=
  ⟨.mark .comma, rfl, fun _ _ hbehind =>
    ⟨boundary_cons rfl (by decide), scans_comma (scans_blank (c := ' ') rfl hbehind)⟩⟩

theorem separates_leftBracket : Separates "[" :=
  ⟨.mark .leftBracket, rfl, fun _ _ hbehind =>
    ⟨boundary_cons rfl (by decide), scans_leftBracket hbehind⟩⟩

theorem separates_rightBracket : Separates "]" :=
  ⟨.mark .rightBracket, rfl, fun _ _ hbehind =>
    ⟨boundary_cons rfl (by decide), scans_rightBracket hbehind⟩⟩

theorem separates_rightParen : Separates ")" :=
  ⟨.mark .rightParen, rfl, fun _ _ hbehind =>
    ⟨boundary_cons rfl (by decide), scans_rightParen hbehind⟩⟩

section

variable {left right mark text name : String} {n k : Nat}

theorem groups_empty : Groups "" 0 := ⟨[], rfl, fun _ _ _ hbehind => hbehind⟩

/-- Two texts with a separator between them have the parentheses of both. -/
theorem Groups.join (h : Groups left n) (hbetween : Separates mark) (h' : Groups right k) :
    Groups (left ++ mark ++ right) (n + k) := by
  obtain ⟨ts, rfl, hscans⟩ := h
  obtain ⟨t, hdivides, hseparates⟩ := hbetween
  obtain ⟨us, rfl, hscans'⟩ := h'
  refine ⟨ts ++ t :: us, groupings_append hdivides false ts us, ?_⟩
  intro rest vs hstop hbehind
  obtain ⟨hboundary, hmarked⟩ := hseparates _ _ (hscans' rest vs hstop hbehind)
  simpa [String.toList_append] using hscans _ _ hboundary hmarked

theorem Groups.opened (hbetween : Separates mark) (h : Groups text n) :
    Groups (mark ++ text) n := by
  have hwhole := groups_empty.join hbetween h
  rwa [String.empty_append, Nat.zero_add] at hwhole

theorem Groups.closed (h : Groups text n) (hbetween : Separates mark) :
    Groups (text ++ mark) n := by
  have hwhole := h.join hbetween groups_empty
  rwa [String.append_empty, Nat.add_zero] at hwhole

/-- Parentheses are added exactly where an operand is weaker than its place asks. -/
theorem Groups.parenthesize (h : Groups text n) (needed strength : Nat) :
    Groups (parenthesize needed strength text) (n + if strength < needed then 1 else 0) := by
  unfold ColumnFlow.parenthesize
  split
  · obtain ⟨ts, rfl, hscans⟩ := h
    refine ⟨.mark .leftParen :: (ts ++ [.mark .rightParen]), groupings_parens ts, ?_⟩
    intro rest us _ hbehind
    have hinner := hscans _ _ (boundary_cons rfl (by decide)) (scans_rightParen hbehind)
    simpa [String.toList_append] using scans_leftParen hinner
  · exact h

theorem groups_name (h : ColumnName name) : Groups name 0 := by
  obtain ⟨ts, hnamed, hscans⟩ := spells_name h
  refine ⟨ts, groupings_dottedName hnamed, fun rest us hstop => ?_⟩
  exact hscans rest us fun c hc => (hstop c hc).1

/-- The parenthesis of a call is not counted. -/
theorem Groups.call (hnamed : ColumnName name) (h : Groups text n) :
    Groups (name ++ "(" ++ text ++ ")") n := by
  obtain ⟨ts, hdotted, hscans⟩ := spells_name hnamed
  obtain ⟨us, rfl, hscans'⟩ := h.closed separates_rightParen
  refine ⟨ts ++ .mark .leftParen :: us, groupings_call hdotted us, ?_⟩
  intro rest vs hstop hbehind
  have hinner := scans_leftParen (hscans' rest vs hstop hbehind)
  have hwhole := hscans _ _ (by rintro _ ⟨⟩; rfl) hinner
  simpa [String.toList_append] using hwhole

/-- A literal has no parentheses, not even within its quotes. -/
theorem groups_literal {v : Literal} (h : v.WellFormed ∧ v.Unsigned) : Groups v.render 0 := by
  cases v with
  | number x =>
    exact ⟨[.number x], rfl, fun rest us hstop hbehind => scans_unsigned h.1 h.2 hstop hbehind⟩
  | text s => exact ⟨[.text s], rfl, fun rest us _ hbehind => scans_text h.1 hbehind⟩
  | bool b =>
    have hword (w : String) (hidentifier : isIdentifier w) : Groups w 0 :=
      ⟨[.name w], rfl, fun rest us hstop => scans_name hidentifier fun c hc => (hstop c hc).1⟩
    cases b with
    | true => exact hword "True" (by decide)
    | false => exact hword "False" (by decide)

/-- Arguments have the parentheses of all of them together. -/
theorem groups_intercalate {texts : List String} {ns : List Nat}
    (h : List.Forall₂ Groups texts ns) : Groups (", ".intercalate texts) ns.sum := by
  induction h with
  | nil => exact groups_empty
  | @cons text n texts ns hhead htail ih =>
    cases htail with
    | nil => simpa using hhead
    | @cons text' n' texts ns hsecond hothers =>
      rw [String.intercalate_cons_cons, List.sum_cons]
      exact hhead.join separates_comma ih

/-- Behind any other text, the text adds so many parentheses. -/
def GroupsBehind (text : String) (n : Nat) : Prop :=
  ∀ before k, Groups before k → Groups (before ++ text) (k + n)

theorem groupsBehind_empty : GroupsBehind "" 0 := by
  intro before k h
  rwa [String.append_empty]

theorem Groups.brackets (h : Groups text n) : GroupsBehind ("[" ++ text ++ "]") n := by
  intro before k h'
  have hwhole := h'.join separates_leftBracket (h.closed separates_rightBracket)
  simpa only [String.append_assoc] using hwhole

theorem Groups.colon (h : Groups text n) : GroupsBehind (":" ++ text) n := by
  intro before k h'
  have hwhole := h'.join separates_colon h
  rwa [String.append_assoc] at hwhole

/-- A slice has the parentheses of its bounds and of its step. -/
theorem Groups.slice {step : String} {j : Nat} (h : Groups left n) (h' : Groups right k)
    (hlast : GroupsBehind step j) :
    GroupsBehind ("[" ++ left ++ ":" ++ right ++ step ++ "]") (n + k + j) := by
  have hinside := hlast _ _ (h.join separates_colon h')
  simpa only [String.append_assoc] using hinside.brackets

theorem Groups.binary (op : BinaryOp) (h : Groups left n) (h' : Groups right k) :
    Groups (left ++ " " ++ op.symbol ++ " " ++ right) (n + k) := by
  have hwhole := h.join (separates_binary op) h'
  simpa only [String.append_assoc] using hwhole

end

/-! ### Expressions -/

/-- A literal that is written without a sign and without escapes. -/
def Literal.Verbatim (v : Literal) : Prop := v.WellFormed ∧ v.Unsigned

mutual

/-- The rendered text has as many parentheses as the count over the tree says. -/
theorem groups_render : (e : Expr) → e.All ColumnName Literal.Verbatim → Groups e.render e.parens
  | .literal _, h => groups_literal h
  | .symbol name s, h => by
    have hwhole := groupsBehind_render? s h.2 _ _ (groups_name h.1)
    rwa [Nat.zero_add] at hwhole
  | .call name es s, h => by
    have hinside := groups_intercalate (groups_renderAll es h.2.1)
    rw [← Expr.parensAll_eq_sum] at hinside
    exact groupsBehind_render? s h.2.2 _ _ (hinside.call h.1)
  | .binary op a b, h => by
    have hleft := (groups_render a h.1).parenthesize op.leftStrength a.strength
    have hright := (groups_render b h.2).parenthesize op.rightStrength b.strength
    exact hleft.binary op hright
  | .unary op a, h => by
    have hoperand := (groups_render a h).parenthesize Expr.unaryStrength a.strength
    exact hoperand.opened (separates_unary op)

theorem groups_renderAll : (es : List Expr) → Expr.AllOf ColumnName Literal.Verbatim es →
    List.Forall₂ Groups (Expr.renderAll es) (es.map Expr.parens)
  | [], _ => .nil
  | e :: es, h => .cons (groups_render e h.1) (groups_renderAll es h.2)

theorem groups_render? : (part : Option Expr) → Expr.All? ColumnName Literal.Verbatim part →
    Groups (Expr.render? part) (Expr.parens? part)
  | none, _ => groups_empty
  | some e, h => groups_render e h

theorem groupsBehind_step : (step : Option Expr) → Expr.All? ColumnName Literal.Verbatim step →
    GroupsBehind (if step.isSome then ":" ++ Expr.render? step else "") (Expr.parens? step)
  | none, _ => groupsBehind_empty
  | some e, h => (groups_render e h).colon

theorem groupsBehind_render : (s : Subscript) → s.All ColumnName Literal.Verbatim →
    GroupsBehind s.render s.parens
  | .index e, h => (groups_render e h).brackets
  | .slice a b c, h =>
    (groups_render? a h.1).slice (groups_render? b h.2.1) (groupsBehind_step c h.2.2)

theorem groupsBehind_render? : (s : Option Subscript) →
    Subscript.All? ColumnName Literal.Verbatim s →
    GroupsBehind (Subscript.render? s) (Subscript.parens? s)
  | none, _ => groupsBehind_empty
  | some s, h => groupsBehind_render s h

end

theorem Expr.allOf_append_cons {P : String → Prop} {Q : Literal → Prop} {before after : List Expr}
    {e : Expr} : Expr.AllOf P Q (before ++ e :: after) ↔
      Expr.AllOf P Q before ∧ e.All P Q ∧ Expr.AllOf P Q after := by
  induction before with
  | nil => simp [Expr.AllOf]
  | cons a before ih => simp [Expr.AllOf, ih, and_assoc]

/-- The text has one pair of parentheses less than the phrase is written with. -/
def Phrase.Lacks (text : String) : Phrase → Prop
  | .expr e => ∃ n, Groups text n ∧ n + 1 = e.parens
  | .subscript s => ∃ n, GroupsBehind text n ∧ n + 1 = s.parens
  | .slicePart part => ∃ n, Groups text n ∧ n + 1 = Expr.parens? part
  | .arguments es => ∃ n, Groups text n ∧ n + 1 = Expr.parensAll es

section

variable {text : String} {a b : Expr} {n : Nat}

/-- Where an operand has one pair less, so has its place. -/
theorem lacks_place (needed : Nat) (h : (Phrase.expr a).Lacks text) :
    ∃ n, Groups (parenthesize needed a.strength text) n ∧ n + 1 = a.parensAt needed := by
  obtain ⟨n, hgroups, hless⟩ := h
  refine ⟨_, hgroups.parenthesize needed a.strength, ?_⟩
  rw [Expr.parensAt, ← hless]
  omega

/-- A text for the left operand that has one pair too few makes the whole lack that pair. -/
theorem lacks_left (op : BinaryOp) (hplain : b.All ColumnName Literal.Verbatim)
    (h : Groups text n) (hless : n + 1 = a.parensAt op.leftStrength) :
    (Phrase.expr (.binary op a b)).Lacks (text ++ " " ++ op.symbol ++ " " ++
      parenthesize op.rightStrength b.strength b.render) := by
  have hright := (groups_render b hplain).parenthesize op.rightStrength b.strength
  refine ⟨_, h.binary op hright, ?_⟩
  change _ = a.parensAt op.leftStrength + b.parensAt op.rightStrength
  rw [← hless, Expr.parensAt]
  omega

/-- A text for the right operand that has one pair too few makes the whole lack that pair. -/
theorem lacks_right (op : BinaryOp) (hplain : a.All ColumnName Literal.Verbatim)
    (h : Groups text n) (hless : n + 1 = b.parensAt op.rightStrength) :
    (Phrase.expr (.binary op a b)).Lacks (parenthesize op.leftStrength a.strength a.render ++ " " ++
      op.symbol ++ " " ++ text) := by
  have hleft := (groups_render a hplain).parenthesize op.leftStrength a.strength
  refine ⟨_, hleft.binary op h, ?_⟩
  change _ = a.parensAt op.leftStrength + b.parensAt op.rightStrength
  rw [← hless, Expr.parensAt]
  omega

/-- A place that writes parentheses has one more than its operand. -/
theorem parensAt_of_weak {needed : Nat} (hweak : a.strength < needed) :
    a.parens + 1 = a.parensAt needed := by
  rw [Expr.parensAt, if_pos hweak]

end

/-- A text in which one pair is left out has one pair less than its phrase needs. -/
theorem lacks_of_omits {phrase : Phrase} {text : String} (homits : Omits phrase text)
    (hplain : phrase.All ColumnName Literal.Verbatim) : phrase.Lacks text := by
  -- The omitted pair is at an operand of the whole, or inside a part of it; around that part the
  -- text is rendered as usual, so its parentheses are counted by `groups_render`.
  induction homits with
  | @left op a b hweak =>
    exact lacks_left op hplain.2 (groups_render a hplain.1) (parensAt_of_weak hweak)
  | @right op a b hweak =>
    exact lacks_right op hplain.1 (groups_render b hplain.2) (parensAt_of_weak hweak)
  | @operand op a hweak =>
    exact ⟨_, (groups_render a hplain).opened (separates_unary op), parensAt_of_weak hweak⟩
  | @inLeft op a b text _ ih =>
    obtain ⟨n, hleft, hless⟩ := lacks_place op.leftStrength (ih hplain.1)
    exact lacks_left op hplain.2 hleft hless
  | @inRight op a b text _ ih =>
    obtain ⟨n, hright, hless⟩ := lacks_place op.rightStrength (ih hplain.2)
    exact lacks_right op hplain.1 hright hless
  | @inOperand op a text _ ih =>
    obtain ⟨n, hoperand, hless⟩ := lacks_place Expr.unaryStrength (ih hplain)
    exact ⟨n, hoperand.opened (separates_unary op), hless⟩
  | @ofSymbol name s text _ ih =>
    obtain ⟨n, hbehind, hless⟩ := ih hplain.2
    have hwhole := hbehind _ _ (groups_name hplain.1)
    rw [Nat.zero_add] at hwhole
    exact ⟨n, hwhole, hless⟩
  | @inCall name es s text _ ih =>
    obtain ⟨n, hinside, hless⟩ := ih hplain.2.1
    refine ⟨_, groupsBehind_render? s hplain.2.2 _ _ (hinside.call hplain.1), ?_⟩
    rw [Expr.parens, ← hless]
    omega
  | @ofCall name es s text _ ih =>
    obtain ⟨n, hbehind, hless⟩ := ih hplain.2.2
    have hinside := groups_intercalate (groups_renderAll es hplain.2.1)
    rw [← Expr.parensAll_eq_sum] at hinside
    refine ⟨_, hbehind _ _ (hinside.call hplain.1), ?_⟩
    rw [Expr.parens, Subscript.parens?, ← hless]
    omega
  | @argument before after e text _ ih =>
    obtain ⟨hearlier, hown, hlater⟩ := Expr.allOf_append_cons.1 hplain
    obtain ⟨n, hinner, hless⟩ := ih hown
    have htexts := List.rel_append (groups_renderAll before hearlier)
      (.cons hinner (groups_renderAll after hlater))
    refine ⟨_, groups_intercalate htexts, ?_⟩
    rw [Expr.parensAll_eq_sum, List.map_append, List.map_cons, List.sum_append, List.sum_append,
      List.sum_cons, List.sum_cons, ← hless]
    omega
  | index _ ih =>
    obtain ⟨n, hinner, hless⟩ := ih hplain
    exact ⟨n, hinner.brackets, hless⟩
  | @lower e b c text _ ih =>
    obtain ⟨n, hinner, hless⟩ := ih hplain.1
    refine ⟨_, hinner.slice (groups_render? b hplain.2.1) (groupsBehind_step c hplain.2.2), ?_⟩
    rw [Subscript.parens, Expr.parens?, ← hless]
    omega
  | @upper a c e text _ ih =>
    obtain ⟨n, hinner, hless⟩ := ih hplain.2.1
    refine ⟨_, (groups_render? a hplain.1).slice hinner (groupsBehind_step c hplain.2.2), ?_⟩
    rw [Subscript.parens]
    change _ = _ + e.parens + _
    omega
  | @step a b e text _ ih =>
    obtain ⟨n, hinner, hless⟩ := ih hplain.2.2
    refine ⟨_, (groups_render? a hplain.1).slice (groups_render? b hplain.2.1) hinner.colon, ?_⟩
    rw [Subscript.parens]
    change _ = _ + _ + e.parens
    omega

/-- An expression is written with no more parentheses than it needs: where those around one operand
are left out, the text is not read as the expression. -/
theorem Expr.parse_ne_of_omits (e : Expr) (hplain : e.All ColumnName Literal.Verbatim)
    (text : String) (homits : Omits (.expr e) text) : Expr.parse text ≠ .ok e := by
  intro hparsed
  obtain ⟨n, ⟨ts, rfl, hscans⟩, hless⟩ := lacks_of_omits homits hplain
  obtain ⟨lexemes, hscanned, hderived⟩ := Expr.parse_eq_ok_iff.1 hparsed
  have hwhole := hscans [] [] boundary_nil scans_nil
  rw [List.append_nil, List.append_nil] at hwhole
  obtain ⟨lexemes', hscanned', htokens⟩ := hwhole 0
  cases hscanned.symm.trans hscanned'
  have henough := parensAt_le_groupings hderived (scannable_of_scan hscanned)
  rw [htokens] at henough
  have hneeded := Expr.parens_le_parensAt Rule.comparison.needed e
  change Expr.parensAt _ _ ≤ _ at henough
  omega

/-- A sum as a factor, in a position of a call. -/
theorem Expr.parse_ne_of_omits_sum :
    let a := Expr.column "a"
    let e := Expr.call "f" [a] (some (.index (.binary .mul (.binary .add a a) a)))
    e.All ColumnName Literal.Verbatim ∧ e.render = "f(a)[(a + a) * a]" ∧
      Omits (.expr e) "f(a)[a + a * a]" ∧ Expr.parse "f(a)[a + a * a]" ≠ .ok e := by
  intro a e
  have hname (w : String) (hword : isIdentifier w) (hfree : w ∉ reservedWords) : ColumnName w :=
    .word hword hfree
  have hoperand : a.All ColumnName Literal.Verbatim := ⟨hname "a" (by decide) (by decide), trivial⟩
  have hplain : e.All ColumnName Literal.Verbatim :=
    ⟨hname "f" (by decide) (by decide), ⟨hoperand, trivial⟩, ⟨hoperand, hoperand⟩, hoperand⟩
  have homits : Omits (.expr e) "f(a)[a + a * a]" := .ofCall (.index (.left (by decide)))
  exact ⟨hplain, rfl, homits, Expr.parse_ne_of_omits e hplain _ homits⟩

end ColumnFlow
