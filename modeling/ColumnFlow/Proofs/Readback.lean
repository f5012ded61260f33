import ColumnFlow.Proofs.Rendering
import ColumnFlow.Proofs.Tiling

/-!
# When a text reads back

A pure expression is written so that it can be read again, but not always as itself. An escape
in a text literal is read as the characters it is made of, and a number that is not finite is
written as a word, which is read as a column. An expression without either reads back, and no
other does: escapes bring backslashes of their own, and what is read holds as many backslashes
as its text.
-/

namespace ColumnFlow

/-! ## Backslashes of a text -/

/-- The characters of the text that a token holds. -/
def Token.textChars : Token → List Char
  | .text s => s.toList
  | _ => []

/-- A token holds the backslashes of the characters it is read from. -/
theorem Lexeme.ReadsBefore.count_source {l : Lexeme} {rest : List Char}
    (hreads : l.ReadsBefore rest) : l.source.count '\\' = l.token.textChars.count '\\' := by
  by_cases htext : ∃ s, l.token = .text s
  · obtain ⟨s, htext⟩ := htext
    obtain ⟨c, cs, -, hsource, hread⟩ := hreads
    rw [htext] at hread
    obtain ⟨hquote, htaken⟩ := chars_of_read hread
    rw [List.take_left] at htaken
    rw [hsource, htaken, htext, Token.textChars]
    rcases hquote with rfl | rfl <;> simp
  · rw [List.count_eq_zero.2 (hreads.not_mem_source (.inr rfl) (not_exists.1 htext))]
    cases htoken : l.token with
    | text s => exact absurd ⟨s, htoken⟩ htext
    | number x => rfl
    | name w => rfl
    | mark m => rfl

theorem count_of_scan {offset : Nat} {cs : List Char} {lexemes : List Lexeme}
    (hscanned : Token.scan offset cs = .ok lexemes) :
    cs.count '\\' = ((lexemes.map Lexeme.token).flatMap Token.textChars).count '\\' := by
  have htiled := scan_eq_ok_iff.1 hscanned
  clear hscanned
  induction htiled with
  | last hisGap => exact List.count_eq_zero.2 (hisGap.not_mem (.inr rfl))
  | next hisGap _ hreads _ ih =>
    rw [List.count_append, List.count_append, List.count_eq_zero.2 (hisGap.not_mem (.inr rfl)),
      hreads.count_source, ih, List.map_cons, List.flatMap_cons, List.count_append, Nat.zero_add]

/-! ## Backslashes of an expression -/

/-- The characters of the text literals of a pure expression, from left to right. -/
def Expr.textChars : Expr → List Char
  | .literal (.text s) => s.toList
  | .binary _ left right => left.textChars ++ right.textChars
  | .unary _ operand => operand.textChars
  | _ => []

theorem textChars_of_holds {t : Token} (h : t.Holds fun _ => False) : t.textChars = [] := by
  cases t with
  | text s => exact h.elim
  | number x => rfl
  | name w => rfl
  | mark m => rfl

theorem Subscripted.not_isPure {s : Subscript} {e e' : Expr} (h : Subscripted s e e') :
    ¬ e'.isPure := by
  cases h <;> simp [Expr.isPure]

/-- The text literals of a pure expression are the texts among its tokens. -/
theorem textChars_of_derives {rule : Rule} {ts : List Token} {phrase : Phrase}
    (h : Derives rule ts phrase) : ∀ {e : Expr}, phrase = .expr e → e.isPure →
      ts.flatMap Token.textChars = e.textChars := by
  -- Induction on the derivation. Only literals have characters of texts, and a pure expression has
  -- neither calls nor subscripts.
  induction h with
  | single _ ih | first _ ih | unsigned _ ih | base _ ih | atom _ ih => exact ih
  | compare _ hop _ ihl ihr =>
    rintro _ ⟨⟩ hpure
    obtain ⟨hpureLeft, hpureRight⟩ := Bool.and_eq_true_iff.1 hpure
    rw [List.flatMap_append, List.flatMap_cons, textChars_of_holds (holds_of_comparison? hop),
      ihl rfl hpureLeft, ihr rfl hpureRight]
    rfl
  | further _ hop _ ihl ihr =>
    rintro _ ⟨⟩ hpure
    obtain ⟨hpureLeft, hpureRight⟩ := Bool.and_eq_true_iff.1 hpure
    rw [List.flatMap_append, List.flatMap_cons, textChars_of_holds (holds_of_operator? hop),
      ihl rfl hpureLeft, ihr rfl hpureRight]
    rfl
  | signed hop _ ih =>
    rintro _ ⟨⟩ hpure
    rw [List.flatMap_cons, textChars_of_holds (holds_of_unary? hop), ih rfl hpure]
    rfl
  | raised _ _ ihl ihr =>
    rintro _ ⟨⟩ hpure
    obtain ⟨hpureLeft, hpureRight⟩ := Bool.and_eq_true_iff.1 hpure
    rw [List.flatMap_append, List.flatMap_cons, ihl rfl hpureLeft, ihr rfl hpureRight]
    rfl
  | subscripted _ _ hjoined _ _ =>
    rintro _ ⟨⟩ hpure
    exact absurd hpure hjoined.not_isPure
  | number | true | false =>
    rintro _ ⟨⟩ _
    rfl
  | text =>
    rintro _ ⟨⟩ _
    exact List.append_nil _
  | symbol hnamed =>
    rintro _ ⟨⟩ _
    exact List.flatMap_eq_nil_iff.2 fun t hmem =>
      textChars_of_holds (holds_of_dottedName hnamed t hmem)
  | call =>
    rintro _ ⟨⟩ hpure
    cases hpure
  | parens _ ih =>
    rintro _ ⟨⟩ hpure
    rw [List.flatMap_cons, List.flatMap_append, ih rfl hpure]
    exact List.append_nil _
  | index | bounds | stepped | omitted | given | noArguments | someArguments | lastArgument
  | moreArguments =>
    rintro _ ⟨⟩

/-- What is read holds as many backslashes as its text. -/
theorem count_of_parse {text : String} {e : Expr} (hparsed : Expr.parse text = .ok e)
    (hpure : e.isPure) : text.toList.count '\\' = e.textChars.count '\\' := by
  obtain ⟨lexemes, hscanned, hderived⟩ := Expr.parse_eq_ok_iff.1 hparsed
  rw [count_of_scan hscanned, textChars_of_derives hderived rfl hpure]

/-! ## Escapes -/

/-- A text literal without escapes. -/
def Literal.Plain : Literal → Prop
  | .text s => s.toList.all isPlain
  | _ => True

/-- No text literal of the expression needs an escape. -/
def Expr.Plain (e : Expr) : Prop := e.All (fun _ => True) Literal.Plain

/-- A character is written as itself or with a further backslash. -/
theorem quoteChar_cases (c : Char) :
    isPlain c ∨ [c].count '\\' < (quoteChar c).count '\\' := by
  unfold isPlain
  fun_cases quoteChar c with
  | case1 | case2 | case3 | case4 | case5 | case6 =>
    subst_vars
    exact .inr (by decide)
  | case7 =>
    rename_i hother _ _ _ _ _
    refine .inr ?_
    rw [List.count_singleton, if_neg (by simpa using hother)]
    simp
  | case8 => exact .inl (BEq.refl _)

theorem count_flatMap_quoteChar (cs : List Char) :
    cs.count '\\' ≤ (cs.flatMap quoteChar).count '\\' ∧
      (cs.count '\\' = (cs.flatMap quoteChar).count '\\' → cs.all isPlain) := by
  induction cs with
  | nil => exact ⟨Nat.le_refl _, fun _ => rfl⟩
  | cons c cs ih =>
    obtain ⟨hle, hall⟩ := ih
    rw [List.flatMap_cons, List.count_append, ← List.singleton_append, List.count_append,
      List.all_append, Bool.and_eq_true]
    rcases quoteChar_cases c with hplain | hfurther
    · rw [eq_of_beq hplain]
      exact ⟨by omega, fun hsame => ⟨by simpa using hplain, hall (by omega)⟩⟩
    · exact ⟨by omega, fun hsame => by omega⟩

theorem count_quote (s : String) :
    (quote s).toList.count '\\' = (s.toList.flatMap quoteChar).count '\\' := by
  rw [quote, String.toList_ofList]
  simp

theorem count_parenthesize (needed strength : Nat) (text : String) :
    (parenthesize needed strength text).toList.count '\\' = text.toList.count '\\' := by
  unfold parenthesize
  split <;> simp

/-- The text of a pure expression has as many backslashes as its text literals only if these need
no escapes. -/
theorem count_render : (e : Expr) → e.isPure →
    e.textChars.count '\\' ≤ e.render.toList.count '\\' ∧
      (e.textChars.count '\\' = e.render.toList.count '\\' → e.Plain)
  | .literal (.text s), _ => by
    rw [Expr.render, Literal.render, count_quote]
    exact count_flatMap_quoteChar s.toList
  | .literal (.number _), _ | .literal (.bool _), _ => ⟨Nat.zero_le _, fun _ => trivial⟩
  | .symbol _ none, _ => ⟨Nat.zero_le _, fun _ => ⟨trivial, trivial⟩⟩
  | .symbol _ (some _), hpure => by cases hpure
  | .call .., hpure => by cases hpure
  | .binary op left right, hpure => by
    obtain ⟨hpureLeft, hpureRight⟩ := Bool.and_eq_true_iff.1 hpure
    obtain ⟨hleLeft, hplainLeft⟩ := count_render left hpureLeft
    obtain ⟨hleRight, hplainRight⟩ := count_render right hpureRight
    rw [Expr.render, Expr.textChars]
    simp only [String.toList_append, List.count_append, count_parenthesize]
    exact ⟨by omega, fun hsame => ⟨hplainLeft (by omega), hplainRight (by omega)⟩⟩
  | .unary op operand, hpure => by
    obtain ⟨hle, hplain⟩ := count_render operand hpure
    rw [Expr.render, Expr.textChars]
    simp only [String.toList_append, List.count_append, count_parenthesize]
    exact ⟨by omega, fun hsame => hplain (by omega)⟩

/-! ## Numbers that are not finite -/

/-- What the text of a pure expression without signs and escapes is read as. -/
def Expr.spelled : Expr → Expr
  | .literal (.number x) =>
    if x.isFinite then .literal (.number x) else .column (Literal.number x).render
  | .binary op left right => .binary op left.spelled right.spelled
  | .unary op operand => .unary op operand.spelled
  | e => e

theorem columnName_of_not_isFinite {x : Float} (hunsigned : isNegative x = false)
    (hinfinite : ¬ x.isFinite) : ColumnName (Literal.number x).render := by
  rw [Literal.render, Layout.writeFloat, Decimal.shortest?, Binary64.ofFloat?_eq_none hinfinite,
    hunsigned]
  simp only [Option.map_none, Bool.false_and, Bool.false_eq_true, if_false, List.nil_append]
  split
  · exact .word (by decide) (by decide)
  · exact .word (by decide) (by decide)

theorem strength_spelled (e : Expr) (hunsigned : e.All ColumnName Literal.Unsigned) :
    e.spelled.strength = e.strength := by
  unfold Expr.spelled
  split
  · next x =>
    split
    · rfl
    · rw [Expr.strength, if_neg (Bool.eq_false_iff.1 hunsigned)]
      rfl
  · rfl
  · rfl
  · rfl

theorem render_spelled : (e : Expr) → e.All ColumnName Literal.Unsigned →
    e.spelled.render = e.render
  | .literal (.number x), _ => by
    rw [Expr.spelled]
    split
    · rfl
    · exact String.append_empty
  | .literal (.text _), _ | .literal (.bool _), _ | .symbol .., _ | .call .., _ => rfl
  | .binary _ left right, h => by
    rw [Expr.spelled, Expr.render, Expr.render, render_spelled left h.1, render_spelled right h.2,
      strength_spelled left h.1, strength_spelled right h.2]
  | .unary _ operand, h => by
    rw [Expr.spelled, Expr.render, Expr.render, render_spelled operand h,
      strength_spelled operand h]

theorem all_spelled : (e : Expr) → e.isPure → e.All ColumnName Literal.Unsigned → e.Plain →
    e.spelled.WellFormed ∧ e.spelled.All ColumnName Literal.Unsigned
  | .literal (.number x), _, h, _ => by
    rw [Expr.spelled]
    split
    · next hfinite => exact ⟨hfinite, h⟩
    · next hinfinite =>
      have hname := columnName_of_not_isFinite h hinfinite
      exact ⟨⟨hname, trivial⟩, ⟨hname, trivial⟩⟩
  | .literal (.text _), _, h, hplain => ⟨hplain, h⟩
  | .literal (.bool _), _, _, _ => ⟨trivial, trivial⟩
  | .symbol _ none, _, h, _ => ⟨h, h⟩
  | .symbol _ (some _), hpure, _, _ => by cases hpure
  | .call .., hpure, _, _ => by cases hpure
  | .binary _ left right, hpure, h, hplain => by
    obtain ⟨hpureLeft, hpureRight⟩ := Bool.and_eq_true_iff.1 hpure
    obtain ⟨hformedLeft, hunsignedLeft⟩ := all_spelled left hpureLeft h.1 hplain.1
    obtain ⟨hformedRight, hunsignedRight⟩ := all_spelled right hpureRight h.2 hplain.2
    exact ⟨⟨hformedLeft, hformedRight⟩, ⟨hunsignedLeft, hunsignedRight⟩⟩
  | .unary _ operand, hpure, h, hplain => all_spelled operand hpure h hplain

variable {e : Expr}

/-- A pure expression without signs and escapes is read as it is spelled. -/
theorem Expr.parse_render_spelled (hpure : e.isPure) (h : e.All ColumnName Literal.Unsigned)
    (hplain : e.Plain) : Expr.parse e.render = .ok e.spelled := by
  obtain ⟨hformed, hunsigned⟩ := all_spelled e hpure h hplain
  rw [← render_spelled e h, Expr.parse_render_of_wellFormed hformed, Expr.withSigns_eq _ hunsigned]

/-- The text of a pure expression without signs is read as the expression itself exactly if its
numbers are finite and its text literals need no escapes. -/
theorem Expr.parse_render_iff (hpure : e.isPure) (h : e.All ColumnName Literal.Unsigned) :
    Expr.parse e.render = .ok e ↔ e.WellFormed := by
  constructor
  · intro hparsed
    have hplain : e.Plain := (count_render e hpure).2 (count_of_parse hparsed hpure).symm
    have hsame : e.spelled = e := by
      rw [Expr.parse_render_spelled hpure h hplain] at hparsed
      exact Except.ok.inj hparsed
    rw [← hsame]
    exact (all_spelled e hpure h hplain).1
  · intro hformed
    rw [Expr.parse_render_of_wellFormed hformed, Expr.withSigns_eq e h]

end ColumnFlow
