import ColumnFlow.Expr.Render
import ColumnFlow.Proofs.Parsing.Contents

/-!
# Parsing undoes rendering

The text of an expression is scanned into tokens that derive the expression again. A negative
number has no literal of its own: it is read as a sign in front of a number. An expression
derives at the rule of its strength and so at every looser rule, which is why an operand needs
parentheses only where it is weaker than its place asks.
-/

namespace ColumnFlow

/-! ## Signs of numbers -/

mutual

/-- The expression with a sign in front of its positive in place of each negative number. -/
def Expr.withSigns : Expr → Expr
  | .literal (.number x) =>
    if isNegative x then .unary .neg (.literal (.number (-x))) else .literal (.number x)
  | .literal value => .literal value
  | .symbol name subscript => .symbol name (Subscript.withSigns? subscript)
  | .call name arguments subscript =>
    .call name (Expr.withSignsAll arguments) (Subscript.withSigns? subscript)
  | .binary op left right => .binary op left.withSigns right.withSigns
  | .unary op operand => .unary op operand.withSigns

def Expr.withSignsAll : List Expr → List Expr
  | [] => []
  | e :: es => e.withSigns :: Expr.withSignsAll es

def Expr.withSigns? : Option Expr → Option Expr
  | none => none
  | some e => some e.withSigns

def Subscript.withSigns : Subscript → Subscript
  | .index position => .index position.withSigns
  | .slice lower upper step =>
    .slice (Expr.withSigns? lower) (Expr.withSigns? upper) (Expr.withSigns? step)

def Subscript.withSigns? : Option Subscript → Option Subscript
  | none => none
  | some s => some s.withSigns

end

section

variable {P : String → Prop}

mutual

/-- An expression without negative numbers stays as it is. -/
theorem Expr.withSigns_eq : (e : Expr) → e.All P Literal.Unsigned → e.withSigns = e
  | .literal (.number x), h => by rw [Expr.withSigns, if_neg (Bool.eq_false_iff.1 h)]
  | .literal (.text _), _ => rfl
  | .literal (.bool _), _ => rfl
  | .symbol _ s, h => by rw [Expr.withSigns, Subscript.withSigns?_eq s h.2]
  | .call _ es s, h => by
    rw [Expr.withSigns, Expr.withSignsAll_eq es h.2.1, Subscript.withSigns?_eq s h.2.2]
  | .binary _ a b, h => by rw [Expr.withSigns, Expr.withSigns_eq a h.1, Expr.withSigns_eq b h.2]
  | .unary _ a, h => by rw [Expr.withSigns, Expr.withSigns_eq a h]

theorem Expr.withSignsAll_eq :
    (es : List Expr) → Expr.AllOf P Literal.Unsigned es → Expr.withSignsAll es = es
  | [], _ => rfl
  | e :: es, h => by rw [Expr.withSignsAll, Expr.withSigns_eq e h.1, Expr.withSignsAll_eq es h.2]

theorem Expr.withSigns?_eq :
    (part : Option Expr) → Expr.All? P Literal.Unsigned part → Expr.withSigns? part = part
  | none, _ => rfl
  | some e, h => by rw [Expr.withSigns?, Expr.withSigns_eq e h]

theorem Subscript.withSigns_eq : (s : Subscript) → s.All P Literal.Unsigned → s.withSigns = s
  | .index e, h => by rw [Subscript.withSigns, Expr.withSigns_eq e h]
  | .slice a b c, h => by
    rw [Subscript.withSigns, Expr.withSigns?_eq a h.1, Expr.withSigns?_eq b h.2.1,
      Expr.withSigns?_eq c h.2.2]

theorem Subscript.withSigns?_eq :
    (s : Option Subscript) → Subscript.All? P Literal.Unsigned s → Subscript.withSigns? s = s
  | none, _ => rfl
  | some s, h => by rw [Subscript.withSigns?, Subscript.withSigns_eq s h]

end

end

/-! ## The ladder of rules -/

/-- The rule at which expressions of a strength derive. -/
def Rule.ofStrength : Nat → Rule
  | 0 | 1 => .comparison
  | 2 => .chain .or
  | 3 => .chain .xor
  | 4 => .chain .and
  | 5 => .chain .sum
  | 6 => .chain .product
  | 7 => .unary
  | 8 => .power
  | _ => .postfixed

/-- What derives at a rule derives at the next looser one. -/
theorem derives_looser {n : Nat} {ts : List Token} {e : Expr}
    (h : Derives (.ofStrength (n + 1)) ts (.expr e)) : Derives (.ofStrength n) ts (.expr e) := by
  match n, h with
  | 0, h => exact h
  | 1, h => exact .single h
  | 2, h => exact .first h
  | 3, h => exact .first h
  | 4, h => exact .first h
  | 5, h => exact .first h
  | 6, h => exact .first h
  | 7, h => exact .unsigned h
  | 8, h => exact .base h
  | n + 9, h => exact h

/-- What derives at the rule of a strength derives at that of any smaller strength. -/
theorem derives_of_le {n m : Nat} {ts : List Token} {e : Expr} (hle : n ≤ m)
    (h : Derives (.ofStrength m) ts (.expr e)) : Derives (.ofStrength n) ts (.expr e) := by
  induction hle with
  | refl => exact h
  | step _ ih => exact ih (derives_looser h)

/-! ## Spelling -/

/-- The text is scanned into tokens that derive the phrase, in front of everything that does not
go on with a name or a number. -/
def Spells (rule : Rule) (text : List Char) (phrase : Phrase) : Prop :=
  ∃ ts, Derives rule ts phrase ∧
    ∀ rest us, Boundary rest → Scans rest us → Scans (text ++ rest) (ts ++ us)

theorem boundary_cons {c : Char} {r : List Char} (hnoPart : isNamePart c = false)
    (hnoPoint : c ≠ '.') : Boundary (c :: r) := by
  rintro _ ⟨⟩
  exact ⟨hnoPart, hnoPoint⟩

theorem boundary_nil : Boundary [] := by
  rintro _ ⟨⟩

/-- What spells an operand where much strength is asked spells it where less is. -/
theorem Spells.of_le {n m : Nat} {text : List Char} {e : Expr} (hle : n ≤ m)
    (h : Spells (.ofStrength m) text (.expr e)) : Spells (.ofStrength n) text (.expr e) := by
  obtain ⟨ts, hderived, hscans⟩ := h
  exact ⟨ts, derives_of_le hle hderived, hscans⟩

/-- An operand fits its place, between parentheses if need be. -/
theorem Spells.parenthesize {needed strength : Nat} {text : String} {e : Expr}
    (h : Spells (.ofStrength strength) text.toList (.expr e)) (hle : needed ≤ Expr.atomStrength) :
    Spells (.ofStrength needed) (parenthesize needed strength text).toList (.expr e) := by
  unfold ColumnFlow.parenthesize
  split
  · obtain ⟨ts, hderived, hscans⟩ := h
    refine Spells.of_le hle ⟨.mark .leftParen :: (ts ++ [.mark .rightParen]), ?_, ?_⟩
    · exact .atom (.parens (derives_of_le (Nat.zero_le _) hderived))
    · intro rest us _ hbehind
      simp only [String.toList_append, List.append_assoc, List.cons_append, List.nil_append]
      exact scans_leftParen (hscans _ _ (boundary_cons rfl (by decide)) (scans_rightParen hbehind))
  · rename_i hstrong
    exact h.of_le (Nat.not_lt.1 hstrong)

/-! ## Literals -/

/-- A literal that reads back: a finite number, or a text that needs no escapes. -/
def Literal.WellFormed : Literal → Prop
  | .number x => x.isFinite
  | .text s => s.toList.all isPlain
  | .bool _ => True

/-- A finite number is written as its sign and a numeral of its magnitude. -/
theorem writeFloat_plain {x : Float} (hfinite : x.isFinite) :
    ∃ n : Numeral, n.IsPositional ∧ n.value.toFloat.toBits = UInt64.ofNat (magnitude x) ∧
      (Layout.plain.writeFloat x).toList
        = (if isNegative x then ['-'] else []) ++ n.write false := by
  obtain ⟨d, hfound, hbits⟩ := Decimal.shortest?_reads_back Layout.plain.tie hfinite
  refine ⟨Layout.plain.positionalNumeral d, Numeral.isPositional _ d, ?_, ?_⟩
  · rw [Numeral.value_positional, hbits]
  · unfold Layout.writeFloat
    rw [hfound, isNaN_eq_false hfinite]
    dsimp only
    rw [String.toList_ofList, Bool.not_false, Bool.and_true]
    rfl

/-- A nonnegative number is the one with the bits of its magnitude. -/
theorem eq_of_magnitude {x y : Float} (hbits : x.toBits = UInt64.ofNat (magnitude y))
    (hsign : isNegative y = false) : x = y := by
  refine toBits_inj (UInt64.toNat_inj.1 ?_)
  have hsmall : magnitude y < 2 ^ 64 := by
    rw [← toNat_toBits hsign]
    exact y.toBits.toNat_lt
  rw [hbits, UInt64.toNat_ofNat', Nat.mod_eq_of_lt hsmall, toNat_toBits hsign]

/-- A number without a sign derives wherever an operand may stand. -/
theorem derives_number (x : Float) (n : Nat) (hle : n ≤ 9) :
    Derives (.ofStrength n) [.number x] (.expr (.literal (.number x))) :=
  derives_of_le hle (.atom .number)

/-- A finite number without a sign is one token. -/
theorem scans_unsigned {x : Float} {rest : List Char} {us : List Token} (hfinite : x.isFinite)
    (hsign : isNegative x = false) (hstop : Boundary rest) (hbehind : Scans rest us) :
    Scans ((Literal.number x).render.toList ++ rest) (.number x :: us) := by
  obtain ⟨n, hpositional, hbits, hchars⟩ := writeFloat_plain hfinite
  rw [Literal.render, hchars, hsign, ← eq_of_magnitude hbits hsign]
  exact scans_number hpositional hstop hbehind

/-- A finite number is spelled by its text, a negative one as a sign in front of its magnitude. -/
theorem spells_number {x : Float} (hfinite : x.isFinite) :
    Spells (.ofStrength (Expr.literal (.number x)).strength) (Literal.number x).render.toList
      (.expr (Expr.literal (.number x)).withSigns) := by
  rw [Expr.strength, Expr.withSigns]
  cases hsign : isNegative x with
  | false =>
    refine ⟨[.number x], derives_number x 9 (Nat.le_refl _), ?_⟩
    intro rest us hstop hbehind
    exact scans_unsigned hfinite hsign hstop hbehind
  | true =>
    obtain ⟨n, hpositional, hbits, hchars⟩ := writeFloat_plain hfinite
    obtain ⟨hturned, hmagnitude⟩ := neg_bits (isFinite_iff.1 hfinite).le
    have hsame : n.value.toFloat = -x :=
      eq_of_magnitude (by rw [hbits, hmagnitude]) (by rw [hturned, hsign]; rfl)
    have hpositive := derives_number (-x) 7 (by decide)
    have hsigned : unary? (.mark .minus) = some .neg := rfl
    refine ⟨[.mark .minus, .number (-x)], .signed hsigned hpositive, ?_⟩
    intro rest us hstop hbehind
    rw [Literal.render, hchars, hsign, ← hsame]
    exact scans_unaryOp .neg (scans_number hpositional hstop hbehind)

/-- A literal is spelled by its text, at the rule of its strength. -/
theorem spells_literal {v : Literal} (h : v.WellFormed) :
    Spells (.ofStrength (Expr.literal v).strength) v.render.toList
      (.expr (Expr.literal v).withSigns) := by
  cases v with
  | number x => exact spells_number h
  | text s =>
    refine ⟨[.text s], .atom .text, ?_⟩
    intro rest us _ hbehind
    exact scans_text h hbehind
  | bool b =>
    cases b with
    | true =>
      refine ⟨[.name "True"], .atom .true, ?_⟩
      intro rest us hstop hbehind
      exact scans_name (w := "True") (by decide) (fun c hc => (hstop c hc).1) hbehind
    | false =>
      refine ⟨[.name "False"], .atom .false, ?_⟩
      intro rest us hstop hbehind
      exact scans_name (w := "False") (by decide) (fun c hc => (hstop c hc).1) hbehind

/-! ## Names -/

/-- A dotted name is scanned word by word, in front of everything but a letter or a digit. -/
theorem spells_name {name : String} (h : ColumnName name) :
    ∃ ts, DottedName ts name ∧ ∀ rest us, (∀ c, rest.head? = some c → isNamePart c = false) →
      Scans rest us → Scans (name.toList ++ rest) (ts ++ us) := by
  induction h with
  | word hidentifier hfree => exact ⟨_, .word hfree, fun rest us => scans_name hidentifier⟩
  | @dotted name part _ hidentifier ih =>
    obtain ⟨ts, hnamed, hscans⟩ := ih
    refine ⟨_, .dotted hnamed, ?_⟩
    intro rest us hstop hbehind
    have hword := scans_name hidentifier hstop hbehind
    have hwhole := hscans _ _ (by rintro _ ⟨⟩; rfl) (scans_dot hidentifier hword)
    simpa [String.toList_append] using hwhole

/-! ## Operators -/

theorem comparison?_mark {op : BinaryOp} (h : op.precedence = 1) :
    comparison? (.mark op.mark) = some op := by
  cases op <;> first | rfl | cases h

/-- Every operator that is neither a comparison nor a power belongs to the level of its
precedence. -/
theorem operator?_mark {op : BinaryOp} (hnotComparison : op.precedence ≠ 1)
    (hnotPower : op ≠ .pow) : ∃ level : Level, level.operator? (.mark op.mark) = some op ∧
      Rule.ofStrength op.precedence = .chain level ∧
      Rule.ofStrength (op.precedence + 1) = level.operandRule := by
  cases op with
  | add | sub => exact ⟨.sum, rfl, rfl, rfl⟩
  | mul | div | floorDiv | mod => exact ⟨.product, rfl, rfl, rfl⟩
  | pow => exact absurd rfl hnotPower
  | eq | ne | lt | le | gt | ge => exact absurd rfl hnotComparison
  | and => exact ⟨.and, rfl, rfl, rfl⟩
  | or => exact ⟨.or, rfl, rfl, rfl⟩
  | xor => exact ⟨.xor, rfl, rfl, rfl⟩

theorem unary?_mark (op : UnaryOp) : unary? (.mark op.mark) = some op := by
  cases op <;> rfl

/-- An operator between operands that fit its sides. -/
theorem derives_binary {op : BinaryOp} {left right : List Token} {a b : Expr}
    (ha : Derives (.ofStrength op.leftStrength) left (.expr a))
    (hb : Derives (.ofStrength op.rightStrength) right (.expr b)) :
    Derives (.ofStrength op.precedence) (left ++ .mark op.mark :: right)
      (.expr (.binary op a b)) := by
  by_cases hpower : op = .pow
  · subst hpower
    exact .raised ha hb
  · by_cases hcomparison : op.precedence = 1
    · have hleftStrength : op.leftStrength = 2 := by
        rw [BinaryOp.leftStrength, if_pos (.inr hcomparison), hcomparison]
      have hrightStrength : op.rightStrength = 2 := by
        rw [BinaryOp.rightStrength, if_neg hpower, hcomparison]
      rw [hleftStrength] at ha
      rw [hrightStrength] at hb
      rw [hcomparison]
      exact .compare ha (comparison?_mark hcomparison) hb
    · obtain ⟨level, hmark, hchain, hoperand⟩ := operator?_mark hcomparison hpower
      have hleftStrength : op.leftStrength = op.precedence :=
        if_neg fun h => h.elim hpower hcomparison
      have hrightStrength : op.rightStrength = op.precedence + 1 := if_neg hpower
      rw [hleftStrength, hchain] at ha
      rw [hrightStrength, hoperand] at hb
      rw [hchain]
      exact .further ha hmark hb

theorem leftStrength_le (op : BinaryOp) : op.leftStrength ≤ Expr.atomStrength := by
  cases op <;> decide

theorem rightStrength_le (op : BinaryOp) : op.rightStrength ≤ Expr.atomStrength := by
  cases op <;> decide

/-- Operands that are spelled at their places spell the operation, with its symbol between blanks.
-/
theorem Spells.binary {op : BinaryOp} {left right : List Char} {a b : Expr}
    (ha : Spells (.ofStrength op.leftStrength) left (.expr a))
    (hb : Spells (.ofStrength op.rightStrength) right (.expr b)) :
    Spells (.ofStrength op.precedence) (left ++ ' ' :: (op.symbol.toList ++ ' ' :: right))
      (.expr (.binary op a b)) := by
  obtain ⟨ts, hderived, hscans⟩ := ha
  obtain ⟨us, hderived', hscans'⟩ := hb
  refine ⟨_, derives_binary hderived hderived', ?_⟩
  intro rest vs hstop hbehind
  have hoperator := scans_binaryOp op (hscans' rest vs hstop hbehind)
  simpa using hscans _ _ (boundary_cons rfl (by decide)) hoperator

/-- An operand spelled at the strength of signs spells the signed operand. -/
theorem Spells.unary {op : UnaryOp} {text : List Char} {a : Expr}
    (ha : Spells (.ofStrength Expr.unaryStrength) text (.expr a)) :
    Spells (.ofStrength Expr.unaryStrength) (op.symbol.toList ++ text) (.expr (.unary op a)) := by
  obtain ⟨ts, hderived, hscans⟩ := ha
  refine ⟨_, .signed (unary?_mark op) hderived, ?_⟩
  intro rest us hstop hbehind
  simpa using scans_unaryOp op (hscans rest us hstop hbehind)

/-! ## Names, calls and subscripts -/

/-- A name or a call: nothing but a letter or a digit goes on with its text. -/
def SpellsBare (text : List Char) (e : Expr) : Prop :=
  ∃ ts, Derives .primary ts (.expr e) ∧
    ∀ rest us, (∀ c, rest.head? = some c → isNamePart c = false) → Scans rest us →
      Scans (text ++ rest) (ts ++ us)

theorem spellsBare_symbol {name : String} (h : ColumnName name) :
    SpellsBare name.toList (.symbol name none) := by
  obtain ⟨ts, hnamed, hscans⟩ := spells_name h
  exact ⟨ts, .symbol hnamed, hscans⟩

/-- A name before parentheses with spelled arguments spells the call. -/
theorem spellsBare_call {name : String} {inside : List Char} {es : List Expr} (h : ColumnName name)
    (harguments : Spells .arguments inside (.arguments es)) :
    SpellsBare (name.toList ++ '(' :: (inside ++ [')'])) (.call name es none) := by
  obtain ⟨ts, hnamed, hscans⟩ := spells_name h
  obtain ⟨us, hderived, hscans'⟩ := harguments
  refine ⟨_, .call hnamed hderived, ?_⟩
  intro rest vs _ hbehind
  have hclosed := hscans' _ _ (boundary_cons rfl (by decide)) (scans_rightParen hbehind)
  have hwhole := hscans _ _ (by rintro _ ⟨⟩; rfl) (scans_leftParen hclosed)
  simpa using hwhole

theorem SpellsBare.spells {text : List Char} {e : Expr} (h : SpellsBare text e) :
    Spells .postfixed text (.expr e) := by
  obtain ⟨ts, hderived, hscans⟩ := h
  exact ⟨ts, .atom hderived, fun rest us hstop => hscans rest us fun c hhead => (hstop c hhead).1⟩

/-- A symbol or call before brackets with a spelled subscript spells the subscripted expression. -/
theorem SpellsBare.subscripted {text inside : List Char} {e e' : Expr} {s : Subscript}
    (h : SpellsBare text e) (hs : Spells .subscript inside (.subscript s))
    (hjoined : Subscripted s e e') :
    Spells .postfixed (text ++ '[' :: (inside ++ [']'])) (.expr e') := by
  obtain ⟨ts, hderived, hscans⟩ := h
  obtain ⟨us, hderived', hscans'⟩ := hs
  refine ⟨_, .subscripted (.atom hderived) hderived' hjoined, ?_⟩
  intro rest vs _ hbehind
  have hclosed := hscans' _ _ (boundary_cons rfl (by decide)) (scans_rightBracket hbehind)
  have hwhole := hscans _ _ (by rintro _ ⟨⟩; rfl) (scans_leftBracket hclosed)
  simpa using hwhole

theorem Spells.index {text : List Char} {e : Expr} (h : Spells .comparison text (.expr e)) :
    Spells .subscript text (.subscript (.index e)) := by
  obtain ⟨ts, hderived, hscans⟩ := h
  exact ⟨ts, .index hderived, hscans⟩

/-- Two spelled bounds with a colon between them spell a slice without a step. -/
theorem Spells.bounds {lower upper : List Char} {a b : Option Expr}
    (ha : Spells .slicePart lower (.slicePart a)) (hb : Spells .slicePart upper (.slicePart b)) :
    Spells .subscript (lower ++ ':' :: upper) (.subscript (.slice a b none)) := by
  obtain ⟨ts, hderived, hscans⟩ := ha
  obtain ⟨us, hderived', hscans'⟩ := hb
  refine ⟨_, .bounds hderived hderived', ?_⟩
  intro rest vs hstop hbehind
  have hcolon := scans_colon (hscans' rest vs hstop hbehind)
  simpa using hscans _ _ (boundary_cons rfl (by decide)) hcolon

/-- Two spelled bounds and a spelled step spell a slice with a step. -/
theorem Spells.stepped {lower upper step : List Char} {a b c : Option Expr}
    (ha : Spells .slicePart lower (.slicePart a)) (hb : Spells .slicePart upper (.slicePart b))
    (hc : Spells .slicePart step (.slicePart c)) :
    Spells .subscript (lower ++ ':' :: (upper ++ ':' :: step)) (.subscript (.slice a b c)) := by
  obtain ⟨ts, hderived, hscans⟩ := ha
  obtain ⟨us, hderived', hscans'⟩ := hb
  obtain ⟨vs, hderived'', hscans''⟩ := hc
  refine ⟨_, .stepped hderived hderived' hderived'', ?_⟩
  intro rest ws hstop hbehind
  have hsecond := scans_colon (hscans'' rest ws hstop hbehind)
  have hfirst := scans_colon (hscans' _ _ (boundary_cons rfl (by decide)) hsecond)
  simpa using hscans _ _ (boundary_cons rfl (by decide)) hfirst

theorem spells_omitted : Spells .slicePart [] (.slicePart none) :=
  ⟨[], .omitted, fun _ _ _ hbehind => hbehind⟩

theorem Spells.given {text : List Char} {e : Expr} (h : Spells .comparison text (.expr e)) :
    Spells .slicePart text (.slicePart (some e)) := by
  obtain ⟨ts, hderived, hscans⟩ := h
  exact ⟨ts, .given hderived, hscans⟩

theorem Spells.lastArgument {text : List Char} {e : Expr}
    (h : Spells .comparison text (.expr e)) : Spells .argumentList text (.arguments [e]) := by
  obtain ⟨ts, hderived, hscans⟩ := h
  exact ⟨ts, .lastArgument hderived, hscans⟩

/-- An argument before a comma and further arguments spell the longer list. -/
theorem Spells.moreArguments {first further : List Char} {e : Expr} {es : List Expr}
    (h : Spells .comparison first (.expr e)) (hs : Spells .argumentList further (.arguments es)) :
    Spells .argumentList (first ++ ',' :: ' ' :: further) (.arguments (e :: es)) := by
  obtain ⟨ts, hderived, hscans⟩ := h
  obtain ⟨us, hderived', hscans'⟩ := hs
  refine ⟨_, .moreArguments hderived hderived', ?_⟩
  intro rest vs hstop hbehind
  have hcomma := scans_comma (scans_blank (c := ' ') rfl (hscans' rest vs hstop hbehind))
  simpa using hscans _ _ (boundary_cons rfl (by decide)) hcomma

theorem spells_noArguments : Spells .arguments [] (.arguments []) :=
  ⟨[], .noArguments, fun _ _ _ hbehind => hbehind⟩

theorem Spells.someArguments {text : List Char} {es : List Expr}
    (h : Spells .argumentList text (.arguments es)) : Spells .arguments text (.arguments es) := by
  obtain ⟨ts, hderived, hscans⟩ := h
  exact ⟨ts, .someArguments hderived, hscans⟩

/-! ## Expressions -/

/-- An expression that reads back: its names are dotted chains of identifiers, its numbers finite
and its texts free of escapes. -/
def Expr.WellFormed (e : Expr) : Prop := e.All ColumnName Literal.WellFormed

/-- The text between the parentheses of a call. -/
theorem spells_arguments {es : List Expr}
    (h : es ≠ [] → Spells .argumentList (", ".intercalate (Expr.renderAll es)).toList
      (.arguments (Expr.withSignsAll es))) :
    Spells .arguments (", ".intercalate (Expr.renderAll es)).toList
      (.arguments (Expr.withSignsAll es)) := by
  cases es with
  | nil => exact spells_noArguments
  | cons e es => exact (h (List.cons_ne_nil e es)).someArguments

mutual

/-- A well-formed expression is spelled by its text at the rule of its strength, with its negative
numbers read as signs. -/
theorem spells_render : (e : Expr) → e.WellFormed →
    Spells (.ofStrength e.strength) e.render.toList (.expr e.withSigns)
  | .literal _, h => spells_literal h
  | .symbol name none, h => by
    have hwhole := (spellsBare_symbol h.1).spells
    rw [Expr.render, Subscript.render?, String.append_empty]
    exact hwhole
  | .symbol name (some s), h => by
    obtain ⟨inside, htext, hspells⟩ := spells_renderSubscript s h.2
    have hwhole := (spellsBare_symbol h.1).subscripted hspells .symbol
    rw [Expr.render, String.toList_append, Subscript.render?, htext]
    exact hwhole
  | .call name es none, h => by
    have hbare := spellsBare_call h.1 (spells_arguments (spells_renderAll es h.2.1))
    have hwhole := hbare.spells
    rw [Expr.render, Subscript.render?, String.append_empty]
    simp only [String.toList_append, List.append_assoc]
    exact hwhole
  | .call name es (some s), h => by
    obtain ⟨inside, htext, hspells⟩ := spells_renderSubscript s h.2.2
    have hbare := spellsBare_call h.1 (spells_arguments (spells_renderAll es h.2.1))
    have hwhole := hbare.subscripted hspells .call
    rw [← htext, List.append_assoc, List.cons_append, List.append_assoc] at hwhole
    rw [Expr.render, Subscript.render?]
    simp only [String.toList_append, List.append_assoc]
    exact hwhole
  | .binary op a b, h => by
    have hleft := (spells_render a h.1).parenthesize (leftStrength_le op)
    have hright := (spells_render b h.2).parenthesize (rightStrength_le op)
    simpa [Expr.render, Expr.strength, Expr.withSigns] using hleft.binary hright
  | .unary op a, h => by
    have hweaker : Expr.unaryStrength ≤ Expr.atomStrength := by decide
    have hoperand := (spells_render a h).parenthesize hweaker
    simpa [Expr.render, Expr.strength, Expr.withSigns] using hoperand.unary

/-- Well-formed arguments, at least one, are spelled by their texts with commas between them. -/
theorem spells_renderAll : (es : List Expr) → Expr.AllOf ColumnName Literal.WellFormed es →
    es ≠ [] → Spells .argumentList (", ".intercalate (Expr.renderAll es)).toList
      (.arguments (Expr.withSignsAll es))
  | [], _, hnonempty => absurd rfl hnonempty
  | [e], h, _ => by
    have hlast := ((spells_render e h.1).of_le (Nat.zero_le _)).lastArgument
    rw [Expr.renderAll, Expr.renderAll, String.intercalate_singleton]
    exact hlast
  | e :: e' :: es, h, _ => by
    have hfirst := (spells_render e h.1).of_le (Nat.zero_le _)
    have hmore := hfirst.moreArguments (spells_renderAll (e' :: es) h.2 (List.cons_ne_nil _ _))
    simpa [Expr.renderAll, Expr.withSignsAll] using hmore

theorem spells_render? : (part : Option Expr) → Expr.All? ColumnName Literal.WellFormed part →
    Spells .slicePart (Expr.render? part).toList (.slicePart (Expr.withSigns? part))
  | none, _ => spells_omitted
  | some e, h => ((spells_render e h).of_le (Nat.zero_le _)).given

/-- A well-formed subscript is spelled by what its text has between the brackets. -/
theorem spells_renderSubscript : (s : Subscript) → s.All ColumnName Literal.WellFormed →
    ∃ inside, s.render.toList = '[' :: (inside ++ [']']) ∧
      Spells .subscript inside (.subscript s.withSigns)
  | .index e, h => by
    refine ⟨e.render.toList, by simp [Subscript.render], ?_⟩
    exact ((spells_render e h).of_le (Nat.zero_le _)).index
  | .slice a b none, h => by
    refine ⟨_, ?_, (spells_render? a h.1).bounds (spells_render? b h.2.1)⟩
    simp [Subscript.render]
  | .slice a b (some c), h => by
    have hstep := ((spells_render c h.2.2).of_le (Nat.zero_le _)).given
    refine ⟨_, ?_, (spells_render? a h.1).stepped (spells_render? b h.2.1) hstep⟩
    simp [Subscript.render, Expr.render?]

end

/-- Parsing the text of a well-formed expression gives the expression with its signs. -/
theorem Expr.parse_render_of_wellFormed {e : Expr} (h : e.WellFormed) :
    Expr.parse e.render = .ok e.withSigns := by
  obtain ⟨ts, hderived, hscans⟩ := (spells_render e h).of_le (Nat.zero_le _)
  have hscanned := hscans [] [] boundary_nil scans_nil
  rw [List.append_nil, List.append_nil] at hscanned
  obtain ⟨lexemes, hok, rfl⟩ := hscanned 0
  exact Expr.parse_eq_ok_iff.2 ⟨lexemes, hok, hderived⟩

/-- The text of a well-formed expression parses to the expression with its signs set apart, and
an expression that has been parsed before comes back as it is. -/
theorem Expr.parse_render (e : Expr) (h : e.WellFormed) :
    Expr.parse e.render = .ok e.withSigns ∧
      ∀ text, Expr.parse text = .ok e → Expr.parse e.render = .ok e := by
  refine ⟨Expr.parse_render_of_wellFormed h, ?_⟩
  intro text hparsed
  rw [Expr.parse_render_of_wellFormed h, Expr.withSigns_eq e (all_of_parse hparsed)]

/-- The power of a negative base: the sign goes between parentheses. -/
theorem Expr.parse_render_negative_base :
    (Expr.binary .pow (.literal (.number (Float.ofBits 0xC000000000000000)))
      (.column "MET.pt")).WellFormed ∧
    Expr.parse (Expr.binary .pow (.literal (.number (Float.ofBits 0xC000000000000000)))
      (.column "MET.pt")).render
      = .ok (.binary .pow (.unary .neg (.literal (.number (Float.ofBits 0x4000000000000000))))
        (.column "MET.pt")) := by
  have hfirst : ColumnName "MET" := .word (by decide) (by decide)
  have hname : ColumnName ("MET" ++ "." ++ "pt") := .dotted hfirst (by decide)
  have hfinite : (Float.ofBits 0xC000000000000000).isFinite := by decide
  have hwellFormed : (Expr.binary .pow (.literal (.number (Float.ofBits 0xC000000000000000)))
      (.column "MET.pt")).WellFormed := ⟨hfinite, hname, trivial⟩
  refine ⟨hwellFormed, (Expr.parse_render _ hwellFormed).1.trans ?_⟩
  rfl

end ColumnFlow
