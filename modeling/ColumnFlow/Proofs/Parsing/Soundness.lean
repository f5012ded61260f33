import ColumnFlow.Proofs.Parsing.Outcome

/-!
# What the parser reads derives

Every function of `Parser` reads a prefix of its tokens that derives, by the rule of the
function, what it returns. The induction is on the length of the list of tokens; for one list
the rules are taken from the tightest to the loosest, and the loop of a rule extends what has
been derived before it.
-/

namespace ColumnFlow.Parser

/-- Every reading of `ts` is a derivation of what was read. -/
def Sound (ts : List Token) : Prop :=
  ∀ rule phrase rest, Reads ts rest rule phrase →
    ∃ used, ts = used ++ rest ∧ Derives rule used phrase

/-- Every list of fewer than `n` tokens is read soundly. -/
def SoundBelow (n : Nat) : Prop := ∀ us : List Token, us.length < n → Sound us

theorem SoundBelow.mono {n m : Nat} (h : SoundBelow m) (hle : n ≤ m) : SoundBelow n :=
  fun us hlt => h us (Nat.lt_of_lt_of_le hlt hle)

/-- The parts of a name are read one behind the other. -/
theorem dottedName_sound {name name' : String} {before ts rest : List Token}
    (hnamed : DottedName before name) (h : (dottedName name ts).outcome = .ok (name', rest)) :
    ∃ used, ts = used ++ rest ∧ DottedName (before ++ used) name' := by
  fun_induction dottedName name ts generalizing before with
  | case1 name part r ih =>
    have hstep : (dottedName (name ++ "." ++ part) r).outcome = .ok (name', rest) := by
      cases hd : dottedName (name ++ "." ++ part) r with
      | error e => rw [hd] at h; cases h
      | ok x => rw [hd] at h; exact h
    obtain ⟨used, rfl, hderived⟩ := ih hnamed.dotted hstep
    exact ⟨.mark .dot :: .name part :: used, rfl, by simpa using hderived⟩
  | case2 => cases h
  | case3 => cases h
  | case4 name ts =>
    cases h
    exact ⟨[], rfl, by simpa using hnamed⟩

/-- What is read as a literal, a name, a call or parentheses derives as such. -/
theorem primary_sound {ts rest : List Token} {e : Expr} (ih : SoundBelow ts.length)
    (h : (primary ts).outcome = .ok (e, rest)) :
    ∃ used, ts = used ++ rest ∧ Derives .primary used (.expr e) := by
  cases ts with
  | nil => rw [primary_nil] at h; cases h
  | cons t r =>
    cases t with
    | number x =>
      rw [primary_number] at h
      cases h
      exact ⟨[.number x], rfl, .number⟩
    | text s =>
      rw [primary_text] at h
      cases h
      exact ⟨[.text s], rfl, .text⟩
    | mark m =>
      by_cases hm : m = .leftParen
      · subst hm
        rw [primary_leftParen] at h
        obtain ⟨⟨a, rest'⟩, ha, h⟩ := bind_eq_ok_iff.1 h
        obtain ⟨⟨_, rest''⟩, hclosed, h⟩ := bind_eq_ok_iff.1 h
        cases h
        obtain ⟨inside, rfl, hderived⟩ := ih r (by simp) .comparison (.expr e) rest' ha
        obtain rfl : rest' = .mark .rightParen :: rest := expectMark_eq_ok_iff.1 hclosed
        exact ⟨.mark .leftParen :: (inside ++ [.mark .rightParen]), by simp, .parens hderived⟩
      · rw [primary_mark m r hm] at h
        cases h
    | name word =>
      rw [primary_name] at h
      split at h
      · next heq =>
        cases h
        exact ⟨[.name word], rfl, heq ▸ .true⟩
      split at h
      · next heq =>
        cases h
        exact ⟨[.name word], rfl, heq ▸ .false⟩
      split at h
      · cases h
      rename_i hnotTrue hnotFalse hnotKeyword
      obtain ⟨⟨name, rest'⟩, hname, hrest⟩ := bind_eq_ok_iff.1 h
      have hfree : word ∉ reservedWords := by simp [reservedWords, hnotTrue, hnotFalse, hnotKeyword]
      obtain ⟨used, rfl, hnamed⟩ := dottedName_sound (.word hfree) hname
      dsimp only at hrest
      split at hrest
      · obtain ⟨⟨es, after⟩, hes, hcall⟩ := bind_eq_ok_iff.1 hrest
        obtain ⟨⟨_, rest''⟩, hclosed, hend⟩ := bind_eq_ok_iff.1 hcall
        cases hend
        rename_i r' _
        obtain ⟨inside, rfl, hderived⟩ :=
          ih r' (by simp; omega) .arguments (.arguments es) after hes
        obtain rfl : after = .mark .rightParen :: rest'' := expectMark_eq_ok_iff.1 hclosed
        exact ⟨.name word :: used ++ .mark .leftParen :: (inside ++ [.mark .rightParen]), by simp,
          .call hnamed hderived⟩
      · cases hrest
        exact ⟨.name word :: used, rfl, .symbol hnamed⟩

/-- The loop of subscripts extends what was derived before it. -/
theorem subscripts_sound {ts rest : List Token} {e e' : Expr} (ih : SoundBelow ts.length)
    (h : (subscripts e ts).outcome = .ok (e', rest)) :
    ∃ used, ts = used ++ rest ∧
      ∀ before, Derives .postfixed before (.expr e) →
        Derives .postfixed (before ++ used) (.expr e') := by
  induction hn : ts.length using Nat.strongRecOn generalizing ts e with
  | ind n hloop =>
    by_cases hbracket : ∃ r, ts = .mark .leftBracket :: r
    · obtain ⟨r, rfl⟩ := hbracket
      rw [subscripts_bracket] at h
      obtain ⟨⟨s, rest'⟩, hs, h⟩ := bind_eq_ok_iff.1 h
      obtain ⟨⟨_, after⟩, hclosed, hafter⟩ := bind_eq_ok_iff.1 h
      obtain ⟨inside, rfl, hderived⟩ := ih r (by simp) .subscript (.subscript s) rest' hs
      obtain rfl : rest' = .mark .rightBracket :: after := expectMark_eq_ok_iff.1 hclosed
      have hlt : after.length < n := by
        rw [← hn]
        simp only [List.length_cons, List.length_append]
        omega
      obtain ⟨used, rfl, hextend⟩ := hloop _ hlt (ih.mono (hn ▸ Nat.le_of_lt hlt)) hafter rfl
      refine ⟨.mark .leftBracket :: (inside ++ [.mark .rightBracket]) ++ used, by simp, ?_⟩
      intro before hbefore
      rw [← List.append_assoc]
      exact hextend _ (.subscripted hbefore hderived (subscripted_iff.2 rfl))
    · rw [subscripts_other e ts fun r hr => hbracket ⟨r, hr⟩] at h
      cases h
      exact ⟨[], rfl, fun before hbefore => by simpa using hbefore⟩

theorem postfixed_sound {ts rest : List Token} {e : Expr} (ih : SoundBelow ts.length)
    (h : (postfixed ts).outcome = .ok (e, rest)) :
    ∃ used, ts = used ++ rest ∧ Derives .postfixed used (.expr e) := by
  rw [postfixed_outcome] at h
  obtain ⟨⟨a, after⟩, ha, hafter⟩ := bind_eq_ok_iff.1 h
  obtain ⟨used, rfl, hderived⟩ := primary_sound ih ha
  obtain ⟨more, rfl, hextend⟩ := subscripts_sound (ih.mono (by simp)) hafter
  exact ⟨used ++ more, by simp, hextend used (.atom hderived)⟩

theorem power_sound {ts rest : List Token} {e : Expr} (ih : SoundBelow ts.length)
    (h : (power ts).outcome = .ok (e, rest)) :
    ∃ used, ts = used ++ rest ∧ Derives .power used (.expr e) := by
  rw [power_outcome] at h
  obtain ⟨⟨a, after⟩, ha, hafter⟩ := bind_eq_ok_iff.1 h
  obtain ⟨used, rfl, hderived⟩ := postfixed_sound ih ha
  dsimp only at hafter
  split at hafter
  · rename_i r
    obtain ⟨⟨b, rest'⟩, hb, hend⟩ := bind_eq_ok_iff.1 hafter
    cases hend
    obtain ⟨exponent, rfl, hraised⟩ := ih r (by simp; omega) .unary (.expr b) rest' hb
    exact ⟨used ++ .mark .starStar :: exponent, by simp, .raised hderived hraised⟩
  · cases hafter
    exact ⟨used, rfl, .base hderived⟩

/-- Signs are read in front of a power, any number of them. -/
theorem unary_sound {ts rest : List Token} {e : Expr} (ih : SoundBelow ts.length)
    (h : (unary ts).outcome = .ok (e, rest)) :
    ∃ used, ts = used ++ rest ∧ Derives .unary used (.expr e) := by
  cases ts with
  | nil =>
    rw [unary_nil] at h
    obtain ⟨used, hused, hderived⟩ := power_sound ih h
    exact ⟨used, hused, .unsigned hderived⟩
  | cons t r =>
    rw [unary_cons] at h
    cases hop : unary? t with
    | none =>
      rw [hop] at h
      obtain ⟨used, hused, hderived⟩ := power_sound ih h
      exact ⟨used, hused, .unsigned hderived⟩
    | some op =>
      rw [hop] at h
      obtain ⟨⟨a, rest'⟩, ha, h⟩ := bind_eq_ok_iff.1 h
      cases h
      obtain ⟨used, rfl, hderived⟩ := ih r (by simp) .unary (.expr a) rest ha
      exact ⟨t :: used, rfl, .signed hop hderived⟩

/-- The loop of a chain extends what was derived before it. -/
theorem chainTail_sound {level : Level} {ts rest : List Token} {a e : Expr}
    (ih : SoundBelow ts.length) (h : (chainTail level a ts).outcome = .ok (e, rest)) :
    ∃ used, ts = used ++ rest ∧
      ∀ before, Derives (.chain level) before (.expr a) →
        Derives (.chain level) (before ++ used) (.expr e) := by
  -- On the number of tokens: what the loop reads extends any derivation of its left operand.
  induction hn : ts.length using Nat.strongRecOn generalizing ts a with
  | ind n hloop =>
    cases ts with
    | nil =>
      rw [chainTail_nil] at h
      cases h
      exact ⟨[], rfl, fun before hbefore => by simpa using hbefore⟩
    | cons t r =>
      rw [chainTail_cons] at h
      cases hop : level.operator? t with
      | none =>
        rw [hop] at h
        cases h
        exact ⟨[], rfl, fun before hbefore => by simpa using hbefore⟩
      | some op =>
        rw [hop] at h
        obtain ⟨⟨b, after⟩, hb, hafter⟩ := bind_eq_ok_iff.1 h
        obtain ⟨right, rfl, hderived⟩ := ih r (by simp) _ (.expr b) after (operand_eq_ok_iff.1 hb)
        have hlt : after.length < n := by
          rw [← hn]
          simp only [List.length_cons, List.length_append]
          omega
        obtain ⟨used, rfl, hextend⟩ := hloop _ hlt (ih.mono (hn ▸ Nat.le_of_lt hlt)) hafter rfl
        refine ⟨t :: right ++ used, by simp, ?_⟩
        intro before hbefore
        rw [← List.append_assoc]
        exact hextend _ (.further hbefore hop hderived)

/-- A chain is read soundly if its operands are. -/
theorem chain_sound {level : Level} {ts rest : List Token} {e : Expr} (ih : SoundBelow ts.length)
    (hoperands : ∀ {a after}, Reads ts after level.operandRule (.expr a) →
      ∃ used, ts = used ++ after ∧ Derives level.operandRule used (.expr a))
    (h : (chain level ts).outcome = .ok (e, rest)) :
    ∃ used, ts = used ++ rest ∧ Derives (.chain level) used (.expr e) := by
  rw [chain_outcome] at h
  obtain ⟨⟨a, after⟩, ha, hafter⟩ := bind_eq_ok_iff.1 h
  obtain ⟨used, rfl, hderived⟩ := hoperands (operand_eq_ok_iff.1 ha)
  obtain ⟨more, rfl, hextend⟩ := chainTail_sound (ih.mono (by simp)) hafter
  exact ⟨used ++ more, by simp, hextend used (.first hderived)⟩

/-- Each level of chains derives from the next tighter one. -/
theorem chains_sound {ts : List Token} (ih : SoundBelow ts.length) (level : Level)
    {rest : List Token} {e : Expr} (h : (chain level ts).outcome = .ok (e, rest)) :
    ∃ used, ts = used ++ rest ∧ Derives (.chain level) used (.expr e) := by
  -- Each level takes its operands from the next, and the last from the unary rule.
  have hproduct : ∀ {e rest}, (chain .product ts).outcome = .ok (e, rest) →
      ∃ used, ts = used ++ rest ∧ Derives (.chain .product) used (.expr e) :=
    chain_sound ih (unary_sound ih)
  have hsum : ∀ {e rest}, (chain .sum ts).outcome = .ok (e, rest) →
      ∃ used, ts = used ++ rest ∧ Derives (.chain .sum) used (.expr e) :=
    chain_sound ih hproduct
  have hand : ∀ {e rest}, (chain .and ts).outcome = .ok (e, rest) →
      ∃ used, ts = used ++ rest ∧ Derives (.chain .and) used (.expr e) :=
    chain_sound ih hsum
  have hxor : ∀ {e rest}, (chain .xor ts).outcome = .ok (e, rest) →
      ∃ used, ts = used ++ rest ∧ Derives (.chain .xor) used (.expr e) :=
    chain_sound ih hand
  cases level with
  | product => exact hproduct h
  | sum => exact hsum h
  | and => exact hand h
  | xor => exact hxor h
  | or => exact chain_sound ih hxor h

/-- A comparison compares two chains and is not compared itself. -/
theorem comparison_sound {ts rest : List Token} {e : Expr} (ih : SoundBelow ts.length)
    (h : (comparison ts).outcome = .ok (e, rest)) :
    ∃ used, ts = used ++ rest ∧ Derives .comparison used (.expr e) := by
  rw [comparison_outcome] at h
  obtain ⟨⟨a, after⟩, ha, hafter⟩ := bind_eq_ok_iff.1 h
  obtain ⟨left, rfl, hderived⟩ := chains_sound ih .or ha
  cases after with
  | nil =>
    cases hafter
    exact ⟨left, rfl, .single hderived⟩
  | cons t r =>
    dsimp only at hafter
    cases hop : comparison? t with
    | none =>
      rw [hop] at hafter
      cases hafter
      exact ⟨left, rfl, .single hderived⟩
    | some op =>
      rw [hop] at hafter
      obtain ⟨⟨b, rest'⟩, hb, hend⟩ := bind_eq_ok_iff.1 hafter
      dsimp only at hend
      split at hend
      · cases hend
      · cases hend
        obtain ⟨right, rfl, hderived'⟩ := ih r (by simp; omega) (.chain .or) (.expr b) rest hb
        exact ⟨left ++ t :: right, by simp, .compare hderived hop hderived'⟩

theorem slicePart_sound {ts rest : List Token} {part : Option Expr} (ih : SoundBelow ts.length)
    (h : (slicePart ts).outcome = .ok (part, rest)) :
    ∃ used, ts = used ++ rest ∧ Derives .slicePart used (.slicePart part) := by
  rw [slicePart_outcome] at h
  split at h
  · cases h
    exact ⟨[], rfl, .omitted⟩
  · obtain ⟨⟨a, rest'⟩, ha, h⟩ := bind_eq_ok_iff.1 h
    cases h
    obtain ⟨used, rfl, hderived⟩ := comparison_sound ih ha
    exact ⟨used, rfl, .given hderived⟩

/-- Arguments are comparisons with commas between them. -/
theorem argumentList_sound {ts rest : List Token} {es : List Expr} (ih : SoundBelow ts.length)
    (h : (argumentList ts).outcome = .ok (es, rest)) :
    ∃ used, ts = used ++ rest ∧ Derives .argumentList used (.arguments es) := by
  rw [argumentList_outcome] at h
  obtain ⟨⟨a, after⟩, ha, hafter⟩ := bind_eq_ok_iff.1 h
  obtain ⟨used, rfl, hderived⟩ := comparison_sound ih ha
  dsimp only at hafter
  split at hafter
  · rename_i r
    obtain ⟨⟨as, rest'⟩, hhas, hend⟩ := bind_eq_ok_iff.1 hafter
    cases hend
    obtain ⟨more, rfl, hothers⟩ := ih r (by simp; omega) .argumentList (.arguments as) rest' hhas
    exact ⟨used ++ .mark .comma :: more, by simp, .moreArguments hderived hothers⟩
  · cases hafter
    exact ⟨used, rfl, .lastArgument hderived⟩

theorem arguments_sound {ts rest : List Token} {es : List Expr} (ih : SoundBelow ts.length)
    (h : (arguments ts).outcome = .ok (es, rest)) :
    ∃ used, ts = used ++ rest ∧ Derives .arguments used (.arguments es) := by
  rw [arguments_outcome] at h
  split at h
  · cases h
    exact ⟨[], rfl, .noArguments⟩
  · obtain ⟨used, hused, hderived⟩ := argumentList_sound ih h
    exact ⟨used, hused, .someArguments hderived⟩

/-- A subscript is an index or the bounds of a slice. -/
theorem subscript_sound {ts rest : List Token} {s : Subscript} (ih : SoundBelow ts.length)
    (h : (subscript ts).outcome = .ok (s, rest)) :
    ∃ used, ts = used ++ rest ∧ Derives .subscript used (.subscript s) := by
  rw [subscript_outcome] at h
  obtain ⟨⟨a, after⟩, ha, hafter⟩ := bind_eq_ok_iff.1 h
  obtain ⟨lower, rfl, hderived⟩ := slicePart_sound ih ha
  dsimp only at hafter
  split at hafter
  · rename_i r
    obtain ⟨⟨b, after'⟩, hb, hafter'⟩ := bind_eq_ok_iff.1 hafter
    obtain ⟨upper, rfl, hderived'⟩ := ih r (by simp; omega) .slicePart (.slicePart b) after' hb
    dsimp only at hafter'
    split at hafter'
    · rename_i r'
      obtain ⟨⟨c, rest'⟩, hc, hend⟩ := bind_eq_ok_iff.1 hafter'
      cases hend
      obtain ⟨step, rfl, hderived''⟩ :=
        ih r' (by simp; omega) .slicePart (.slicePart c) rest' hc
      exact ⟨lower ++ .mark .colon :: (upper ++ .mark .colon :: step), by simp,
        .stepped hderived hderived' hderived''⟩
    · cases hafter'
      exact ⟨lower ++ .mark .colon :: upper, by simp, .bounds hderived hderived'⟩
  · cases a with
    | none => cases hafter
    | some position =>
      cases hafter
      cases hderived with
      | given hderived => exact ⟨lower, rfl, .index hderived⟩

/-- Whatever a rule reads, it derives. -/
theorem sound (ts : List Token) : Sound ts := by
  induction hn : ts.length using Nat.strongRecOn generalizing ts with
  | ind n hbelow =>
    have ih : SoundBelow ts.length := fun us hlt => hbelow us.length (hn ▸ hlt) us rfl
    rintro rule phrase rest h
    cases rule <;> cases phrase <;> try exact h.elim
    case comparison.expr => exact comparison_sound ih h
    case chain.expr level e => exact chains_sound ih level h
    case unary.expr => exact unary_sound ih h
    case power.expr => exact power_sound ih h
    case postfixed.expr => exact postfixed_sound ih h
    case primary.expr => exact primary_sound ih h
    case subscript.subscript => exact subscript_sound ih h
    case slicePart.slicePart => exact slicePart_sound ih h
    case arguments.arguments => exact arguments_sound ih h
    case argumentList.arguments => exact argumentList_sound ih h

end ColumnFlow.Parser
