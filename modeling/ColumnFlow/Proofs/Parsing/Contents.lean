import ColumnFlow.Proofs.Parsing.Completeness
import ColumnFlow.Proofs.Tiling

/-!
# What parsed expressions are made of

`Expr.All` lifts a property of names and one of literals to every name and literal of an
expression. A parsed expression holds dotted chains of identifiers and numbers without a sign,
since its tokens do.
-/

namespace ColumnFlow

/-! ## Names and literals -/

/-- A dotted chain of identifiers whose first part is not reserved. -/
inductive ColumnName : String → Prop where
  | word {w : String} : isIdentifier w → w ∉ reservedWords → ColumnName w
  | dotted {name part : String} :
      ColumnName name → isIdentifier part → ColumnName (name ++ "." ++ part)

section

variable (P : String → Prop) (Q : Literal → Prop)

mutual

/-- Every name of the expression satisfies `P` and every literal satisfies `Q`. -/
def Expr.All : Expr → Prop
  | .literal value => Q value
  | .symbol name subscript => P name ∧ Subscript.All? subscript
  | .call name arguments subscript => P name ∧ Expr.AllOf arguments ∧ Subscript.All? subscript
  | .binary _ left right => left.All ∧ right.All
  | .unary _ operand => operand.All

def Expr.AllOf : List Expr → Prop
  | [] => True
  | e :: es => e.All ∧ Expr.AllOf es

def Expr.All? : Option Expr → Prop
  | none => True
  | some e => e.All

def Subscript.All : Subscript → Prop
  | .index position => position.All
  | .slice lower upper step => Expr.All? lower ∧ Expr.All? upper ∧ Expr.All? step

def Subscript.All? : Option Subscript → Prop
  | none => True
  | some s => s.All

end

end

/-- Every part of a phrase satisfies the properties. -/
def Phrase.All (P : String → Prop) (Q : Literal → Prop) : Phrase → Prop
  | .expr e => e.All P Q
  | .subscript s => s.All P Q
  | .slicePart part => Expr.All? P Q part
  | .arguments es => Expr.AllOf P Q es

variable {P P' R : String → Prop} {Q Q' S : Literal → Prop}

mutual

/-- What follows from two properties of names and two of literals. -/
theorem Expr.All.combine (hnames : ∀ {n}, P n → P' n → R n)
    (hliterals : ∀ {v}, Q v → Q' v → S v) : (e : Expr) → e.All P Q → e.All P' Q' → e.All R S
  | .literal _, h, h' => hliterals h h'
  | .symbol _ s, h, h' => ⟨hnames h.1 h'.1, Subscript.All?.combine hnames hliterals s h.2 h'.2⟩
  | .call _ es s, h, h' =>
    ⟨hnames h.1 h'.1, Expr.AllOf.combine hnames hliterals es h.2.1 h'.2.1,
      Subscript.All?.combine hnames hliterals s h.2.2 h'.2.2⟩
  | .binary _ a b, h, h' =>
    ⟨Expr.All.combine hnames hliterals a h.1 h'.1, Expr.All.combine hnames hliterals b h.2 h'.2⟩
  | .unary _ a, h, h' => Expr.All.combine hnames hliterals a h h'

theorem Expr.AllOf.combine (hnames : ∀ {n}, P n → P' n → R n)
    (hliterals : ∀ {v}, Q v → Q' v → S v) :
    (es : List Expr) → Expr.AllOf P Q es → Expr.AllOf P' Q' es → Expr.AllOf R S es
  | [], _, _ => trivial
  | e :: es, h, h' =>
    ⟨Expr.All.combine hnames hliterals e h.1 h'.1, Expr.AllOf.combine hnames hliterals es h.2 h'.2⟩

theorem Expr.All?.combine (hnames : ∀ {n}, P n → P' n → R n)
    (hliterals : ∀ {v}, Q v → Q' v → S v) :
    (part : Option Expr) → Expr.All? P Q part → Expr.All? P' Q' part → Expr.All? R S part
  | none, _, _ => trivial
  | some e, h, h' => Expr.All.combine hnames hliterals e h h'

theorem Subscript.All.combine (hnames : ∀ {n}, P n → P' n → R n)
    (hliterals : ∀ {v}, Q v → Q' v → S v) :
    (s : Subscript) → s.All P Q → s.All P' Q' → s.All R S
  | .index e, h, h' => Expr.All.combine hnames hliterals e h h'
  | .slice a b c, h, h' =>
    ⟨Expr.All?.combine hnames hliterals a h.1 h'.1, Expr.All?.combine hnames hliterals b
      h.2.1 h'.2.1, Expr.All?.combine hnames hliterals c h.2.2 h'.2.2⟩

theorem Subscript.All?.combine (hnames : ∀ {n}, P n → P' n → R n)
    (hliterals : ∀ {v}, Q v → Q' v → S v) :
    (s : Option Subscript) → Subscript.All? P Q s → Subscript.All? P' Q' s → Subscript.All? R S s
  | none, _, _ => trivial
  | some s, h, h' => Subscript.All.combine hnames hliterals s h h'

end

/-! ## Parsed expressions -/

/-- The literal that a token writes satisfies the property. -/
def Token.Holds (Q : Literal → Prop) : Token → Prop
  | .number x => Q (.number x)
  | .text s => Q (.text s)
  | _ => True

theorem holds_of_comparison? {t : Token} {op : BinaryOp} (h : comparison? t = some op) :
    t.Holds Q := by
  unfold comparison? at h
  split at h <;> trivial

theorem holds_of_operator? {level : Level} {t : Token} {op : BinaryOp}
    (h : level.operator? t = some op) : t.Holds Q := by
  unfold Level.operator? at h
  split at h <;> trivial

theorem holds_of_unary? {t : Token} {op : UnaryOp} (h : unary? t = some op) : t.Holds Q := by
  unfold unary? at h
  split at h <;> trivial

/-- The tokens of a name say nothing about literals. -/
theorem holds_of_dottedName {ts : List Token} {name : String} (h : DottedName ts name) :
    ∀ t ∈ ts, t.Holds Q := by
  induction h with
  | word _ => simp [Token.Holds]
  | dotted _ ih => simpa [or_imp, forall_and, Token.Holds] using ih

/-- A name that was scanned is one of a column. -/
theorem columnName_of_dottedName {ts : List Token} {name : String} (h : DottedName ts name)
    (hscanned : ∀ t ∈ ts, t.Scannable) : ColumnName name := by
  induction h with
  | word hfree => exact .word (hscanned _ (List.mem_singleton_self _)) hfree
  | dotted _ ih =>
    simp only [List.forall_mem_append, List.forall_mem_cons] at hscanned
    exact .dotted (ih hscanned.1) hscanned.2.2.1

theorem columnName_slice : ColumnName "slice" := .word (by decide) (by decide)

/-- Attaching a subscript adds the names and literals of the subscript. -/
theorem all_subscripted {s : Subscript} {e e' : Expr} (h : Subscripted s e e') :
    e'.All ColumnName Q ↔ e.All ColumnName Q ∧ s.All ColumnName Q := by
  cases h with
  | symbol => simp [Expr.All, Subscript.All?]
  | call => simp [Expr.All, Subscript.All?, and_assoc]
  | slice => simp [Expr.All, Expr.AllOf, Subscript.All?, columnName_slice]

/-- What the tokens of a text derive is made of dotted names and of the literals among them. -/
theorem all_iff_of_derives {rule : Rule} {ts : List Token} {phrase : Phrase}
    (hbools : ∀ b, Q (.bool b)) (h : Derives rule ts phrase) (hscanned : ∀ t ∈ ts, t.Scannable) :
    phrase.All ColumnName Q ↔ ∀ t ∈ ts, t.Holds Q := by
  induction h with
  | single _ ih | first _ ih | unsigned _ ih | base _ ih | atom _ ih | index _ ih | given _ ih
  | someArguments _ ih => exact ih hscanned
  | compare _ hop _ ihl ihr =>
    simp only [List.forall_mem_append, List.forall_mem_cons] at hscanned ⊢
    rw [← ihl hscanned.1, ← ihr hscanned.2.2]
    simp [Phrase.All, Expr.All, holds_of_comparison? hop]
  | further _ hop _ ihl ihr =>
    simp only [List.forall_mem_append, List.forall_mem_cons] at hscanned ⊢
    rw [← ihl hscanned.1, ← ihr hscanned.2.2]
    simp [Phrase.All, Expr.All, holds_of_operator? hop]
  | signed hop _ ih =>
    simp only [List.forall_mem_cons] at hscanned ⊢
    rw [← ih hscanned.2]
    simp [Phrase.All, Expr.All, holds_of_unary? hop]
  | raised _ _ ihl ihr =>
    simp only [List.forall_mem_append, List.forall_mem_cons] at hscanned ⊢
    rw [← ihl hscanned.1, ← ihr hscanned.2.2]
    simp [Phrase.All, Expr.All, Token.Holds]
  | subscripted _ _ hjoined ihe ihs =>
    simp only [List.forall_mem_append, List.forall_mem_cons] at hscanned ⊢
    rw [← ihe hscanned.1, ← ihs hscanned.2.2.1]
    simp [Phrase.All, all_subscripted hjoined, Token.Holds]
  | bounds _ _ ihl ihu =>
    simp only [List.forall_mem_append, List.forall_mem_cons] at hscanned ⊢
    rw [← ihl hscanned.1, ← ihu hscanned.2.2]
    simp [Phrase.All, Subscript.All, Expr.All?, Token.Holds]
  | stepped _ _ _ ihl ihu ihs =>
    simp only [List.forall_mem_append, List.forall_mem_cons] at hscanned ⊢
    rw [← ihl hscanned.1, ← ihu hscanned.2.2.1, ← ihs hscanned.2.2.2.2]
    simp [Phrase.All, Subscript.All, Token.Holds]
  | omitted | noArguments => simp [Phrase.All, Expr.All?, Expr.AllOf]
  | number | text => simp [Phrase.All, Expr.All, Token.Holds]
  | true | false => simp [Phrase.All, Expr.All, Token.Holds, hbools]
  | symbol hnamed =>
    have hcolumn := columnName_of_dottedName hnamed hscanned
    exact iff_of_true ⟨hcolumn, trivial⟩ (holds_of_dottedName hnamed)
  | call hnamed _ ih =>
    simp only [List.forall_mem_append, List.forall_mem_cons] at hscanned ⊢
    have hcolumn := columnName_of_dottedName hnamed hscanned.1
    rw [← ih hscanned.2.2.1]
    simpa [Phrase.All, Expr.All, Subscript.All?, Token.Holds, hcolumn] using
      fun _ => holds_of_dottedName hnamed
  | parens _ ih =>
    simp only [List.forall_mem_append, List.forall_mem_cons] at hscanned ⊢
    rw [← ih hscanned.2.1]
    simp [Token.Holds]
  | lastArgument _ ih =>
    rw [← ih hscanned]
    simp [Phrase.All, Expr.AllOf]
  | moreArguments _ _ ihe ihs =>
    simp only [List.forall_mem_append, List.forall_mem_cons] at hscanned ⊢
    rw [← ihe hscanned.1, ← ihs hscanned.2.2]
    simp [Phrase.All, Expr.AllOf, Token.Holds]

/-- A literal as it is written: a number has no sign. -/
def Literal.Unsigned : Literal → Prop
  | .number x => isNegative x = false
  | _ => True

/-- The names and the literals of a parsed expression. -/
theorem all_of_parse {text : String} {e : Expr} (hparsed : Expr.parse text = .ok e) :
    e.All ColumnName Literal.Unsigned := by
  obtain ⟨lexemes, hscanned, hderived⟩ := Expr.parse_eq_ok_iff.1 hparsed
  have hscannable := scannable_of_scan hscanned
  refine (all_iff_of_derives (fun _ => trivial) hderived hscannable).2 fun t hmem => ?_
  have := hscannable t hmem
  cases t with
  | number x => exact this
  | _ => trivial

end ColumnFlow
