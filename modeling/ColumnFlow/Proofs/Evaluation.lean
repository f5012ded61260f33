import ColumnFlow.Proofs.Execution.Tasks
import ColumnFlow.Proofs.Rendering

/-!
# Evaluating rendered expressions

An eval task holds its expression as a text and parses it when it runs. For a pure expression
that was parsed this comes to evaluating the expression itself: either its text reads back as
it is, or it holds a text literal and has a value on neither side.
-/

namespace ColumnFlow

variable {env env' : Environment} {v : Value}

/-! ## Written expressions -/

/-- A number literal that has not overflowed. -/
def Literal.Finite : Literal → Prop
  | .number x => x.isFinite
  | _ => True

/-- No number literal of the expression has overflowed. -/
def Expr.Finite (e : Expr) : Prop := e.All (fun _ => True) Literal.Finite

/-- A literal as it is written, a number without a sign. -/
def Literal.Written : Literal → Prop
  | .number x => isNegative x = false ∧ x.isFinite
  | _ => True

/-- The names and the literals are such as can be written in a text. -/
def Expr.Written (e : Expr) : Prop := e.All ColumnName Literal.Written

/-- A parsed expression with finite numbers is one that was written. -/
theorem written_of_parse {text : String} {e : Expr} (hparsed : Expr.parse text = .ok e)
    (hfinite : e.Finite) : e.Written := by
  refine Expr.All.combine (fun hname _ => hname) ?_ e (all_of_parse hparsed) hfinite
  intro v hunsigned hfinite
  cases v with
  | number x => exact ⟨hunsigned, hfinite⟩
  | text s => trivial
  | bool b => trivial

/-! ## Text literals -/

/-- A literal that arithmetic takes. -/
def Literal.Numeric : Literal → Prop
  | .text _ => False
  | _ => True

/-- No text literal occurs in the expression. -/
def Expr.Numeric (e : Expr) : Prop := e.All (fun _ => True) Literal.Numeric

section

variable {inputs : Inputs} {name : String} {z : Operand} {left right operand : Expr}

theorem evalOver_symbol_eq_ok_iff :
    (Expr.symbol name none).evalOver inputs = .ok z ↔ inputs.get? name = some z := by
  rw [Expr.evalOver]
  cases inputs.get? name with
  | none => exact iff_of_false nofun nofun
  | some y => rw [Except.ok.injEq, Option.some.injEq]

/-- An operation over columns has a value exactly if both operands have one. -/
theorem evalOver_binary_eq_ok_iff {op : BinaryOp} :
    (Expr.binary op left right).evalOver inputs = .ok z ↔
      ∃ x y, left.evalOver inputs = .ok x ∧ right.evalOver inputs = .ok y ∧
        x.zip op.kernel y = z := by
  rw [Expr.evalOver]
  simp only [bind_eq_ok_iff]
  constructor
  · rintro ⟨x, hfirst, y, hsecond, hcombined⟩
    exact ⟨x, y, hfirst, hsecond, Except.ok.inj hcombined⟩
  · rintro ⟨x, y, hfirst, hsecond, rfl⟩
    exact ⟨x, hfirst, y, hsecond, rfl⟩

theorem evalOver_unary_eq_ok_iff {op : UnaryOp} :
    (Expr.unary op operand).evalOver inputs = .ok z ↔
      ∃ x, operand.evalOver inputs = .ok x ∧ x.map op.kernel = z := by
  rw [Expr.evalOver, bind_eq_ok_iff]
  exact exists_congr fun x => and_congr_right fun _ => ⟨Except.ok.inj, congrArg Except.ok⟩

/-- An expression with a text literal has no value. -/
theorem numeric_of_evalOver : (e : Expr) → {x : Operand} → e.evalOver inputs = .ok x → e.Numeric
  | .literal (.number _), _, _ => trivial
  | .literal (.bool _), _, _ => trivial
  | .literal (.text _), _, h => by cases h
  | .symbol _ none, _, _ => ⟨trivial, trivial⟩
  | .symbol _ (some _), _, h => by cases h
  | .call .., _, h => by cases h
  | .binary _ left right, _, h => by
    obtain ⟨x, y, hfirst, hsecond, -⟩ := evalOver_binary_eq_ok_iff.1 h
    exact ⟨numeric_of_evalOver left hfirst, numeric_of_evalOver right hsecond⟩
  | .unary _ operand, _, h => by
    obtain ⟨x, hfirst, -⟩ := evalOver_unary_eq_ok_iff.1 h
    exact numeric_of_evalOver operand hfirst

end

/-- What has a value holds no text literal. -/
theorem numeric_of_eval {e : Expr} (h : e.eval env = .ok v) : e.Numeric := by
  obtain ⟨resolved, _, h⟩ := bind_eq_ok_iff.1 h
  obtain ⟨aligned, _, h⟩ := bind_eq_ok_iff.1 h
  obtain ⟨x, hvalue, _⟩ := bind_eq_ok_iff.1 h
  exact numeric_of_evalOver e hvalue

theorem mem_parenthesize {c : Char} {needed strength : Nat} {text : String}
    (hmem : c ∈ text.toList) : c ∈ (parenthesize needed strength text).toList := by
  unfold parenthesize
  split
  · simp [hmem]
  · exact hmem

theorem numeric_of_literal {value : Literal} (h : '"' ∉ value.render.toList) :
    value.Numeric := by
  cases value with
  | number x => trivial
  | text s =>
    rw [Literal.render, quote, String.toList_ofList] at h
    exact absurd List.mem_cons_self h
  | bool b => trivial

/-- The text of a pure expression shows its text literals. -/
theorem numeric_of_render : (e : Expr) → e.isPure → '"' ∉ e.render.toList → e.Numeric
  | .literal _, _, h => numeric_of_literal h
  | .symbol _ none, _, _ => ⟨trivial, trivial⟩
  | .symbol _ (some _), hpure, _ => by cases hpure
  | .call .., hpure, _ => by cases hpure
  | .binary _ left right, hpure, h => by
    obtain ⟨hpureLeft, hpureRight⟩ := Bool.and_eq_true_iff.1 hpure
    rw [Expr.render] at h
    simp only [String.toList_append, List.mem_append, not_or] at h
    exact ⟨numeric_of_render left hpureLeft fun hmem => h.1.1.1.1 (mem_parenthesize hmem),
      numeric_of_render right hpureRight fun hmem => h.2 (mem_parenthesize hmem)⟩
  | .unary _ operand, hpure, h => by
    rw [Expr.render] at h
    simp only [String.toList_append, List.mem_append, not_or] at h
    exact numeric_of_render operand hpure fun hmem => h.2 (mem_parenthesize hmem)

/-- What is parsed from a text with a quote in it holds a text literal. -/
theorem not_numeric_of_parse {text : String} {e : Expr} (hparsed : Expr.parse text = .ok e)
    (hquoted : '"' ∈ text.toList) : ¬ e.Numeric := by
  intro hnumeric
  obtain ⟨lexemes, hscanned, hderived⟩ := Expr.parse_eq_ok_iff.1 hparsed
  have hscannable := scannable_of_scan hscanned
  obtain ⟨l, hmem, s, htext⟩ := exists_text_of_scan hscanned hquoted
  have hnamed : e.All ColumnName Literal.Numeric :=
    Expr.All.combine (fun hname _ => hname) (fun _ hnumeric => hnumeric) e (all_of_parse hparsed)
      hnumeric
  have hholds := (all_iff_of_derives (fun _ => trivial) hderived hscannable).1 hnamed l.token
    (List.mem_map.2 ⟨l, hmem, rfl⟩)
  rw [htext] at hholds
  exact hholds

/-! ## Reading back -/

/-- Evaluating the text of a pure expression is evaluating the expression. -/
theorem evaluateText_render {e : Expr} (hpure : e.isPure) (hwritten : e.Written) :
    evaluateText e.render env = .ok v ↔ e.eval env = .ok v := by
  by_cases hnumeric : e.Numeric
  · have hwellFormed : e.WellFormed := by
      refine Expr.All.combine (fun hname _ => hname) ?_ e hwritten hnumeric
      intro v hwritten hnumeric
      cases v with
      | number x => exact hwritten.2
      | text s => exact hnumeric.elim
      | bool b => trivial
    have hunsigned : e.All ColumnName Literal.Unsigned := by
      refine Expr.All.combine (fun hname _ => hname) ?_ e hwritten hwritten
      intro v hwritten _
      cases v with
      | number x => exact hwritten.1
      | text s => trivial
      | bool b => trivial
    rw [evaluateText, Expr.parse_render_of_wellFormed hwellFormed, Expr.withSigns_eq e hunsigned]
    rfl
  · refine iff_of_false (fun h => ?_) fun h => hnumeric (numeric_of_eval h)
    obtain ⟨e', hparsed, h⟩ := bind_eq_ok_iff.1 h
    have hquoted : '"' ∈ e.render.toList :=
      Decidable.byContradiction fun hplain => hnumeric (numeric_of_render e hpure hplain)
    exact not_numeric_of_parse (mapError_eq_ok_iff.1 hparsed) hquoted (numeric_of_eval h)

/-- The value depends on nothing but the columns of the expression. -/
theorem eval_congr {e : Expr} (hsame : ∀ c ∈ e.symbols, env.get? c = env'.get? c) :
    e.eval env = e.eval env' := by
  have hresolved {names : List String} (hsame : ∀ c ∈ names, env.get? c = env'.get? c) :
      (names.mapM fun name => (resolveName env name).map fun x => (name, x)) =
        names.mapM fun name => (resolveName env' name).map fun x => (name, x) := by
    induction names with
    | nil => rfl
    | cons n ns ih =>
      rw [List.forall_mem_cons] at hsame
      rw [List.mapM_cons, List.mapM_cons, ih hsame.2, resolveName, resolveName, hsame.1]
  rw [Expr.eval, Expr.eval, hresolved hsame]

/-! ## Eval tasks -/

theorem Arg.refsAll_singleton (a : Arg) : Arg.refsAll [a] = a.refs := List.append_nil _

theorem Arg.refsAll_append (as bs : List Arg) :
    Arg.refsAll (as ++ bs) = Arg.refsAll as ++ Arg.refsAll bs := by
  induction as with
  | nil => rfl
  | cons a as ih => rw [List.cons_append, Arg.refsAll, Arg.refsAll, ih, List.append_assoc]

theorem Arg.refsAll_map (names : List String) : Arg.refsAll (names.map Arg.column) = [] := by
  induction names with
  | nil => rfl
  | cons n ns ih => exact ih

theorem Arg.columnsAll_map (names : List String) :
    Arg.columnsAll (names.map Arg.column) = names := by
  induction names with
  | nil => rfl
  | cons n ns ih => exact congrArg (n :: ·) ih

namespace Task

/-- An eval task evaluates its expression. -/
theorem value_onePass {e : Expr} {args : List Arg} {after : List String}
    {results : String → Option Value} (hpure : e.isPure) (hwritten : e.Written) :
    value .onePass results env ⟨.eval e.render, args, after⟩ = .ok v ↔ e.eval env = .ok v := by
  rw [value_eval, ← evaluateText_render hpure hwritten]
  exact mapError_eq_ok_iff

/-- An eval task of the one pass reads its columns and nothing else. -/
theorem framed_onePass {e : Expr} {after : List String} (hpure : e.isPure) (hwritten : e.Written) :
    Framed .onePass ⟨.eval e.render, e.symbols.map .column, after⟩ := by
  intro results results' env env' v _ hcolumns h
  rw [Task.columns, Arg.columnsAll_map] at hcolumns
  rw [value_onePass hpure hwritten, eval_congr hcolumns] at h
  exact (value_onePass hpure hwritten).2 h

end Task

end ColumnFlow
