import ColumnFlow.Expr.Token
import ColumnFlow.Proofs.Grammar
import ColumnFlow.Proofs.Numbers.Decimals
import ColumnFlow.Proofs.Numbers.Numerals

/-!
# Scanning piece by piece

A text is scanned from the left, and the token at its front depends on the characters behind
it only where a name or a number could go on. `Scans` forgets the offsets, so that texts can be
put together from their pieces.
-/

namespace ColumnFlow

/-- The characters are cut into the tokens, wherever they start. -/
def Scans (cs : List Char) (ts : List Token) : Prop :=
  ∀ offset, ∃ lexemes, Token.scan offset cs = .ok lexemes ∧ lexemes.map Lexeme.token = ts

theorem scans_nil : Scans [] [] := by
  intro offset
  exact ⟨[], by rw [Token.scan], rfl⟩

/-- Blanks are passed over. -/
theorem scans_blank {c : Char} {cs : List Char} {ts : List Token} (hblank : isBlank c = true)
    (h : Scans cs ts) : Scans (c :: cs) ts := by
  intro offset
  rw [Token.scan, if_pos hblank]
  exact h _

/-- A token is read from the front, and scanning goes on behind it. -/
theorem scans_token {c : Char} {cs : List Char} {t : Token} {n : Nat} {ts : List Token}
    (hvisible : isBlank c = false) (hread : Token.read c cs = .ok (t, n))
    (h : Scans (cs.drop n) ts) : Scans (c :: cs) (t :: ts) := by
  intro offset
  obtain ⟨lexemes, hscanned, htokens⟩ := h (offset + byteLength (c :: cs.take n))
  refine ⟨⟨t, offset, c :: cs.take n⟩ :: lexemes, ?_, by rw [List.map_cons, htokens]⟩
  rw [Token.scan, if_neg (by simp [hvisible]), hread]
  dsimp only
  rw [hscanned]

/-! ## Marks -/

theorem scans_mark {c : Char} {cs : List Char} {m : Mark} {n : Nat} {ts : List Token}
    (hvisible : isBlank c = false) (hmark : leadingMark? c cs = some (m, n))
    (h : Scans (cs.drop n) ts) : Scans (c :: cs) (.mark m :: ts) := by
  refine scans_token hvisible ?_ h
  rw [Token.read, hmark]

/-- A mark of one character that starts no mark of two. -/
theorem scans_single {c : Char} {cs : List Char} {m : Mark} {ts : List Token}
    (hvisible : isBlank c = false) (halone : ∀ d, doubleMark? c d = none) (hpoint : c ≠ '.')
    (hsingle : singleMark? c = some m) (h : Scans cs ts) : Scans (c :: cs) (.mark m :: ts) := by
  have hdouble : cs.head?.bind (doubleMark? c) = none := by
    cases cs with
    | nil => rfl
    | cons d ds => exact halone d
  refine scans_mark (n := 0) hvisible ?_ h
  rw [leadingMark?, hdouble]
  dsimp only
  rw [if_neg hpoint, hsingle]
  rfl

section Punctuation

variable {cs : List Char} {ts : List Token} (h : Scans cs ts)
include h

theorem scans_leftParen : Scans ('(' :: cs) (.mark .leftParen :: ts) :=
  scans_single rfl (fun _ => rfl) (by decide) rfl h

theorem scans_rightParen : Scans (')' :: cs) (.mark .rightParen :: ts) :=
  scans_single rfl (fun _ => rfl) (by decide) rfl h

theorem scans_leftBracket : Scans ('[' :: cs) (.mark .leftBracket :: ts) :=
  scans_single rfl (fun _ => rfl) (by decide) rfl h

theorem scans_rightBracket : Scans (']' :: cs) (.mark .rightBracket :: ts) :=
  scans_single rfl (fun _ => rfl) (by decide) rfl h

theorem scans_comma : Scans (',' :: cs) (.mark .comma :: ts) :=
  scans_single rfl (fun _ => rfl) (by decide) rfl h

theorem scans_colon : Scans (':' :: cs) (.mark .colon :: ts) :=
  scans_single rfl (fun _ => rfl) (by decide) rfl h

end Punctuation

/-! ## Names and numbers -/

/-- Nothing that goes on with a name or a number stands in front. -/
def Boundary (rest : List Char) : Prop :=
  ∀ c, rest.head? = some c → isNamePart c = false ∧ c ≠ '.'

/-- No mark is part of a name or a number. -/
theorem leadingMark?_eq_none {c : Char} (hpart : isNamePart c) (cs : List Char) :
    leadingMark? c cs = none := by
  have hdouble (d : Char) : doubleMark? c d = none := by
    unfold doubleMark?
    split <;> first | rfl | exact absurd hpart (by decide)
  have hsingle : singleMark? c = none := by
    unfold singleMark?
    split <;> first | rfl | exact absurd hpart (by decide)
  have hpoint : c ≠ '.' := by
    rintro rfl
    exact absurd hpart (by decide)
  have hnone : cs.head?.bind (doubleMark? c) = none := by
    cases cs with
    | nil => rfl
    | cons d ds => exact hdouble d
  rw [leadingMark?, hnone]
  dsimp only
  rw [if_neg hpoint, hsingle]
  rfl

theorem isBlank_eq_false {c : Char} (hpart : isNamePart c) : isBlank c = false := by
  refine Bool.eq_false_iff.2 fun hblank => ?_
  unfold isBlank at hblank
  simp only [Bool.or_eq_true, decide_eq_true_eq] at hblank
  rcases hblank with (((rfl | rfl) | rfl) | rfl) | rfl <;> exact absurd hpart (by decide)

theorem isNamePart_of_isDigit {c : Char} (hdigit : c.isDigit) : isNamePart c := by
  simp [isNamePart, Char.isAlphanum, hdigit]

/-- What starts a name may also stand within it. -/
theorem isNamePart_of_isNameStart {c : Char} (hstart : isNameStart c) : isNamePart c := by
  simp only [isNameStart, Bool.or_eq_true] at hstart
  rcases hstart with halpha | hunderscore
  · simp [isNamePart, Char.isAlphanum, halpha]
  · simp [isNamePart, hunderscore]

theorem isDigit_eq_false {c : Char} (halpha : c.isAlpha) : c.isDigit = false := by
  simp only [Char.isAlpha, Char.isUpper, Char.isLower, Char.isDigit, UInt32.le_iff_toNat_le,
    Bool.or_eq_true, Bool.and_eq_true, decide_eq_true_eq, Bool.and_eq_false_iff,
    decide_eq_false_iff_not, ge_iff_le, Char.reduceVal, UInt32.reduceToNat] at *
  omega

/-- A name start is no digit and opens no text. -/
theorem not_isDigit_of_isNameStart {c : Char} (hstart : isNameStart c) :
    ¬ (c.isDigit || c = '.') ∧ ¬ (c = '\'' || c = '"') := by
  constructor
  · intro hnumber
    rcases Bool.or_eq_true_iff.1 hnumber with hdigit | hpoint
    · rcases Bool.or_eq_true_iff.1 hstart with halpha | hunderscore
      · rw [isDigit_eq_false halpha] at hdigit
        cases hdigit
      · rw [of_decide_eq_true hunderscore] at hdigit
        cases hdigit
    · rw [of_decide_eq_true hpoint] at hstart
      exact absurd hstart (by decide)
  · intro hquote
    rcases Bool.or_eq_true_iff.1 hquote with hsingle | hdouble
    · rw [of_decide_eq_true hsingle] at hstart
      exact absurd hstart (by decide)
    · rw [of_decide_eq_true hdouble] at hstart
      exact absurd hstart (by decide)

/-- A name: a letter or an underscore, then letters, underscores and digits. -/
def isIdentifier (s : String) : Bool :=
  match s.toList with
  | [] => false
  | c :: cs => isNameStart c && cs.all isNamePart

theorem isIdentifier_ofList {c : Char} {cs : List Char} (hstart : isNameStart c)
    (hparts : cs.all isNamePart) : isIdentifier (String.ofList (c :: cs)) := by
  rw [isIdentifier, String.toList_ofList]
  exact Bool.and_eq_true_iff.2 ⟨hstart, hparts⟩

/-- A run of characters is taken whole in front of one that is not of its kind. -/
theorem takeWhile_append {p : Char → Bool} {cs rest : List Char} (hall : ∀ c ∈ cs, p c)
    (hstop : ∀ c, rest.head? = some c → p c = false) : (cs ++ rest).takeWhile p = cs := by
  rw [List.takeWhile_append_of_pos hall]
  cases rest with
  | nil => exact List.append_nil _
  | cons c r => rw [List.takeWhile_cons_of_neg (by simp [hstop c rfl]), List.append_nil]

/-- A name is scanned where no further part of a name follows. -/
theorem scans_name {w : String} {rest : List Char} {ts : List Token} (hword : isIdentifier w)
    (hstop : ∀ c, rest.head? = some c → isNamePart c = false) (h : Scans rest ts) :
    Scans (w.toList ++ rest) (.name w :: ts) := by
  unfold isIdentifier at hword
  split at hword
  · cases hword
  · rename_i c cs hchars
    obtain ⟨hstart, hparts⟩ := Bool.and_eq_true_iff.1 hword
    have hpart := isNamePart_of_isNameStart hstart
    obtain ⟨hnotNumber, hnotText⟩ := not_isDigit_of_isNameStart hstart
    have htaken := takeWhile_append (List.all_eq_true.1 hparts) hstop
    rw [hchars, List.cons_append]
    refine scans_token (n := cs.length) (isBlank_eq_false hpart) ?_ ?_
    · rw [Token.read, leadingMark?_eq_none hpart]
      dsimp only
      rw [if_neg hnotNumber, if_neg hnotText, if_pos hstart, htaken, List.take_left, ← hchars,
        String.ofList_toList]
    · rw [List.drop_left]
      exact h

/-- A point in front of a name. -/
theorem scans_dot {w : String} {rest : List Char} {ts : List Token} (hword : isIdentifier w)
    (h : Scans (w.toList ++ rest) ts) : Scans ('.' :: (w.toList ++ rest)) (.mark .dot :: ts) := by
  refine scans_mark (n := 0) rfl ?_ h
  unfold isIdentifier at hword
  split at hword
  · cases hword
  · rename_i c cs hchars
    have hstart := (Bool.and_eq_true_iff.1 hword).1
    have hnoDigit : c.isDigit = false := by
      refine Bool.eq_false_iff.2 fun hdigit => ?_
      exact (not_isDigit_of_isNameStart hstart).1 (by simp [hdigit])
    rw [hchars, List.cons_append, leadingMark?]
    change (if '.' = '.' then if c.isDigit then none else some (Mark.dot, 0) else _) = _
    rw [if_pos rfl, hnoDigit]
    rfl

/-! ### Numbers -/

theorem isExponentMark_eq_false {c : Char} (hpart : c.isDigit || c = '.') :
    isExponentMark c = false := by
  refine Bool.eq_false_iff.2 fun hmark => ?_
  simp only [isExponentMark, Bool.or_eq_true, decide_eq_true_eq] at hmark
  rcases hmark with rfl | rfl <;> exact absurd hpart (by decide)

/-- A number does not go on behind a digit or a point. -/
theorem isNumberPart_eq_false {previous c : Char} (hnoExponent : isExponentMark previous = false)
    (hnoPart : isNamePart c = false) (hnoPoint : c ≠ '.') : isNumberPart previous c = false := by
  have hnoDigit : c.isDigit = false :=
    Bool.eq_false_iff.2 fun hdigit => Bool.eq_false_iff.1 hnoPart (isNamePart_of_isDigit hdigit)
  have hnoMark : isExponentMark c = false := by
    refine Bool.eq_false_iff.2 fun hmark => ?_
    simp only [isExponentMark, Bool.or_eq_true, decide_eq_true_eq] at hmark
    rcases hmark with rfl | rfl <;> exact absurd hnoPart (by decide)
  simp [isNumberPart, hnoDigit, hnoPoint, hnoMark, hnoExponent]

/-- Digits and points are read as one number up to a boundary. -/
theorem numberLength_append {previous : Char} {cs rest : List Char}
    (hparts : ∀ c ∈ cs, c.isDigit || c = '.') (hnoExponent : isExponentMark previous = false)
    (hstop : Boundary rest) : numberLength previous (cs ++ rest) = cs.length := by
  induction cs generalizing previous with
  | nil =>
    cases rest with
    | nil => rfl
    | cons c r =>
      obtain ⟨hnoPart, hnoPoint⟩ := hstop c rfl
      rw [List.nil_append, numberLength, isNumberPart_eq_false hnoExponent hnoPart hnoPoint]
      rfl
  | cons c cs ih =>
    have hpart := hparts c List.mem_cons_self
    have hgoesOn : isNumberPart previous c = true := by
      simp only [isNumberPart, hpart, Bool.true_or]
    rw [List.cons_append, numberLength, if_pos hgoesOn, List.length_cons,
      ih (fun d h => hparts d (List.mem_cons_of_mem _ h)) (isExponentMark_eq_false hpart)]

/-- A numeral without an exponent is scanned as its value, in front of a boundary. -/
theorem scans_number {n : Numeral} {plusSign : Bool} {rest : List Char} {ts : List Token}
    (hpositional : n.IsPositional) (hstop : Boundary rest) (h : Scans rest ts) :
    Scans (n.write plusSign ++ rest) (.number n.value.toFloat :: ts) := by
  have hread := Numeral.read?_write hpositional plusSign
  obtain ⟨c, cs, hchars, hdigit, hparts⟩ := Numeral.chars_of_positional hpositional plusSign
  have hnumber := hparts c List.mem_cons_self
  have hlength := numberLength_append (fun d hmem => hparts d (List.mem_cons_of_mem _ hmem))
    (isExponentMark_eq_false hnumber) hstop
  have hpart := isNamePart_of_isDigit hdigit
  rw [hchars] at hread ⊢
  rw [List.cons_append]
  refine scans_token (n := cs.length) (isBlank_eq_false hpart) ?_ ?_
  · rw [Token.read, leadingMark?_eq_none hpart]
    dsimp only
    rw [if_pos hnumber, hlength, List.take_left, hread]
  · rw [List.drop_left]
    exact h

/-! ### Texts -/

/-- Plain text is quoted without escapes. -/
theorem quote_of_isPlain {s : String} (hplain : s.toList.all isPlain) :
    (quote s).toList = '"' :: (s.toList ++ ['"']) := by
  have hsame : s.toList.flatMap quoteChar = s.toList := by
    generalize s.toList = chars at hplain
    induction chars with
    | nil => rfl
    | cons c cs ih =>
      rw [List.all_cons, Bool.and_eq_true] at hplain
      rw [List.flatMap_cons, ih hplain.2, eq_of_beq hplain.1]
      rfl
  rw [quote, String.toList_ofList, hsame, List.cons_append]

theorem ne_quote_of_isPlain {c : Char} (hplain : isPlain c) : c ≠ '"' := by
  rintro rfl
  exact absurd hplain (by decide)

/-- Plain text is scanned between its quotes. -/
theorem scans_text {s : String} {rest : List Char} {ts : List Token}
    (hplain : s.toList.all isPlain) (h : Scans rest ts) :
    Scans ((quote s).toList ++ rest) (.text s :: ts) := by
  have hinside : ∀ c ∈ s.toList, decide (c ≠ '"') = true := by
    intro c hmem
    exact decide_eq_true (ne_quote_of_isPlain (List.all_eq_true.1 hplain c hmem))
  have htaken : (s.toList ++ '"' :: rest).takeWhile (· ≠ '"') = s.toList := by
    refine takeWhile_append hinside ?_
    rintro c ⟨⟩
    rfl
  rw [quote_of_isPlain hplain, List.cons_append, List.append_assoc, List.singleton_append]
  refine scans_token (n := s.toList.length + 1) rfl ?_ ?_
  · have hnone : leadingMark? '"' (s.toList ++ '"' :: rest) = none := by
      cases s.toList with
      | nil => rfl
      | cons c cs => rfl
    rw [Token.read, hnone]
    dsimp only
    rw [if_neg (by decide), if_pos (by decide), htaken, if_neg (by simp), String.ofList_toList]
  · rw [← List.drop_drop, List.drop_left]
    exact h

/-! ## Operators -/

/-- The mark of an operator. -/
def BinaryOp.mark : BinaryOp → Mark
  | .add => .plus
  | .sub => .minus
  | .mul => .star
  | .div => .slash
  | .floorDiv => .slashSlash
  | .mod => .percent
  | .pow => .starStar
  | .eq => .eq
  | .ne => .ne
  | .lt => .lt
  | .le => .le
  | .gt => .gt
  | .ge => .ge
  | .and => .amp
  | .or => .pipe
  | .xor => .caret

/-- The mark of a sign. -/
def UnaryOp.mark : UnaryOp → Mark
  | .neg => .minus
  | .pos => .plus
  | .invert => .tilde

/-- An operator between blanks. -/
theorem scans_binaryOp (op : BinaryOp) {rest : List Char} {ts : List Token} (h : Scans rest ts) :
    Scans (' ' :: (op.symbol.toList ++ ' ' :: rest)) (.mark op.mark :: ts) := by
  refine scans_blank rfl ?_
  have hbehind : Scans (' ' :: rest) ts := scans_blank rfl h
  cases op <;> first
    | exact scans_mark (n := 0) rfl rfl hbehind
    | exact scans_mark (n := 1) rfl rfl hbehind

/-- A sign in front of anything. -/
theorem scans_unaryOp (op : UnaryOp) {rest : List Char} {ts : List Token} (h : Scans rest ts) :
    Scans (op.symbol.toList ++ rest) (.mark op.mark :: ts) := by
  cases op with
  | neg => exact scans_single rfl (fun _ => rfl) (by decide) rfl h
  | pos => exact scans_single rfl (fun _ => rfl) (by decide) rfl h
  | invert => exact scans_single rfl (fun _ => rfl) (by decide) rfl h

/-! ## What is read -/

/-- A token that can come from a text: its name is an identifier, its number has no sign. -/
def Token.Scannable : Token → Prop
  | .name w => isIdentifier w
  | .number x => isNegative x = false
  | _ => True

theorem take_length_takeWhile (p : Char → Bool) (cs : List Char) :
    cs.take (cs.takeWhile p).length = cs.takeWhile p :=
  (List.prefix_iff_eq_take.1 (List.takeWhile_prefix p)).symm

/-- What is read from a text is a token that scanning can give. -/
theorem scannable_of_read {c : Char} {cs : List Char} {t : Token} {n : Nat}
    (hread : Token.read c cs = .ok (t, n)) : t.Scannable := by
  unfold Token.read at hread
  split at hread
  · cases hread
    trivial
  · split at hread
    · dsimp only at hread
      split at hread
      · cases hread
        exact Decimal.isNegative_toFloat _
      · cases hread
    · split at hread
      · dsimp only at hread
        split at hread
        · cases hread
        · cases hread
          trivial
      · split at hread
        · rename_i hstart
          cases hread
          rw [take_length_takeWhile]
          exact isIdentifier_ofList hstart List.all_takeWhile
        · cases hread

/-! ### Quotes and backslashes -/

/-- A quote or a backslash. -/
def IsQuoting (q : Char) : Prop := q = '"' ∨ q = '\\'

variable {q : Char}

/-- A number has no quote and no backslash. -/
theorem not_mem_take_numberLength (hquoting : IsQuoting q) (previous : Char) (cs : List Char) :
    q ∉ cs.take (numberLength previous cs) := by
  induction cs generalizing previous with
  | nil => simp
  | cons c cs ih =>
    unfold numberLength
    split
    · next hpart =>
      rw [List.take_succ_cons, List.mem_cons, not_or]
      refine ⟨?_, ih c⟩
      rintro rfl
      rcases hquoting with rfl | rfl <;> simp [isNumberPart, isExponentMark] at hpart
    · simp

/-- A mark has no quote and no backslash. -/
theorem not_mem_of_leadingMark? {c : Char} {cs : List Char} {m : Mark} {n : Nat}
    (hquoting : IsQuoting q) (hleads : leadingMark? c cs = some (m, n)) : q ∉ c :: cs.take n := by
  unfold leadingMark? at hleads
  split at hleads
  · next hfound =>
    cases hleads
    obtain ⟨d, hhead, hdouble⟩ := Option.bind_eq_some_iff.1 hfound
    obtain ⟨rest, rfl⟩ := List.head?_eq_some_iff.1 hhead
    rw [List.take_succ_cons, List.take_zero]
    unfold doubleMark? at hdouble
    rcases hquoting with rfl | rfl
    all_goals
      split at hdouble
      all_goals first | decide | cases hdouble
  · split at hleads
    · next hpoint =>
      subst hpoint
      split at hleads
      · cases hleads
      · cases hleads
        rcases hquoting with rfl | rfl <;> simp
    · obtain ⟨_, hsingle, heq⟩ := Option.map_eq_some_iff.1 hleads
      cases heq
      rw [List.take_zero, List.mem_singleton]
      rintro rfl
      rcases hquoting with rfl | rfl <;> cases hsingle

/-- Only a text is read from characters with a quote or a backslash among them. -/
theorem not_mem_of_read {c : Char} {cs : List Char} {t : Token} {n : Nat} (hquoting : IsQuoting q)
    (hread : Token.read c cs = .ok (t, n)) (hnoText : ∀ s, t ≠ .text s) : q ∉ c :: cs.take n := by
  unfold Token.read at hread
  split at hread
  · next hleads =>
    cases hread
    exact not_mem_of_leadingMark? hquoting hleads
  · split at hread
    · next hdigit =>
      dsimp only at hread
      split at hread
      · cases hread
        refine fun hmem => (List.mem_cons.1 hmem).elim ?_ (not_mem_take_numberLength hquoting c cs)
        rintro rfl
        rcases hquoting with rfl | rfl <;> exact absurd hdigit (by decide)
      · cases hread
    · split at hread
      · dsimp only at hread
        split at hread
        · cases hread
        · cases hread
          exact absurd rfl (hnoText _)
      · split at hread
        · next hstart =>
          cases hread
          rw [take_length_takeWhile]
          intro hmem
          have hpart : isNamePart q := by
            rcases List.mem_cons.1 hmem with rfl | hmem
            · exact isNamePart_of_isNameStart hstart
            · exact List.all_eq_true.1 List.all_takeWhile q hmem
          rcases hquoting with rfl | rfl <;> exact absurd hpart (by decide)
        · cases hread

end ColumnFlow
