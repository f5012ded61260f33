import ColumnFlow.Proofs.Parsing.Soundness

/-!
# What derives is read

Tokens that derive a phrase are read as that phrase by the function of the rule, in front of
every list of tokens that does not go on with it. A chain and a row of subscripts derive from
the left, and the parser reads them in a loop: there the statement is that reading a part of
them comes out where the loop goes on.
-/

namespace ColumnFlow.Parser

/-! ## Tokens that start nothing -/

/-- A mark that starts no expression. -/
theorem comparison_mark_ne_ok {m : Mark} (hparen : m ≠ .leftParen)
    (hsign : unary? (.mark m) = none) (r : List Token) (x : Expr × List Token) :
    (comparison (.mark m :: r)).outcome ≠ .ok x := by
  simp [comparison_outcome, chain_outcome, operand_outcome, unary_cons, hsign, power_outcome,
    postfixed_outcome, primary_mark m r hparen, bind, Except.bind]

/-- A sign starts no power. -/
theorem power_sign_ne_ok {t : Token} {op : UnaryOp} (hsign : unary? t = some op) (r : List Token)
    (x : Expr × List Token) : (power (t :: r)).outcome ≠ .ok x := by
  unfold unary? at hsign
  split at hsign <;>
    simp_all [power_outcome, postfixed_outcome, primary_mark, bind, Except.bind]

/-- What a comparison is read from does not end a bound of a slice. -/
theorem not_endsPart_of_comparison {ts : List Token} {x : Expr × List Token}
    (h : (comparison ts).outcome = .ok x) : ¬ endsPart ts := by
  rintro (hcolon | hbracket)
  · obtain ⟨r, rfl⟩ := List.head?_eq_some_iff.1 hcolon
    exact comparison_mark_ne_ok (by decide) rfl r x h
  · obtain ⟨r, rfl⟩ := List.head?_eq_some_iff.1 hbracket
    exact comparison_mark_ne_ok (by decide) rfl r x h

/-- What arguments are read from does not begin with a closing parenthesis. -/
theorem argumentList_ne_rightParen {ts : List Token} {x : List Expr × List Token}
    (h : (argumentList ts).outcome = .ok x) : ts.head? ≠ some (.mark .rightParen) := by
  intro hparen
  obtain ⟨r, rfl⟩ := List.head?_eq_some_iff.1 hparen
  rw [argumentList_outcome] at h
  obtain ⟨a, ha, _⟩ := bind_eq_ok_iff.1 h
  exact comparison_mark_ne_ok (by decide) rfl r a ha

/-! ## Where loops end -/

theorem not_stops_cons {n k : Nat} {t : Token} {r : List Token} (ht : t.strength? = some k)
    (hle : n ≤ k) : ¬ Stops n (t :: r) :=
  fun h => absurd (h k ht) (Nat.not_lt.2 hle)

/-- The loop of a chain ends in front of what is too weak for its level. -/
theorem chainTail_of_stops {level : Level} {a : Expr} {rest : List Token}
    (h : Stops level.strength rest) : (chainTail level a rest).outcome = .ok (a, rest) := by
  cases rest with
  | nil => exact chainTail_nil level a
  | cons t r =>
    rw [chainTail_cons]
    cases hop : level.operator? t with
    | none => rfl
    | some op => exact absurd h (not_stops_cons (strength_of_operator? hop) (Nat.le_refl _))

/-- The loop of subscripts ends in front of anything but a bracket. -/
theorem subscripts_of_stops {e : Expr} {rest : List Token} (h : Stops 9 rest) :
    (subscripts e rest).outcome = .ok (e, rest) := by
  refine subscripts_other e rest ?_
  rintro r rfl
  exact not_stops_cons (k := 9) rfl (Nat.le_refl _) h

/-- No token has the strength of a unary operator. -/
theorem stops_unary {rest : List Token} (h : Stops 8 rest) : Stops 7 rest := by
  cases rest with
  | nil => trivial
  | cons t r =>
    intro k hk
    have hlt := h k hk
    have hne : k ≠ 7 := by
      rintro rfl
      unfold Token.strength? at hk
      split at hk <;> cases hk
    omega

theorem dottedName_dot (name part : String) (r : List Token) :
    (dottedName name (.mark .dot :: .name part :: r)).outcome =
      (dottedName (name ++ "." ++ part) r).outcome := by
  rw [dottedName]
  cases dottedName (name ++ "." ++ part) r <;> rfl

theorem dottedName_of_ne_dot {name : String} {rest : List Token}
    (h : rest.head? ≠ some (.mark .dot)) : (dottedName name rest).outcome = .ok (name, rest) := by
  unfold dottedName
  split
  · exact absurd rfl h
  · exact absurd rfl h
  · exact absurd rfl h
  · rfl

theorem dottedName_of_stops {name : String} {rest : List Token} (h : Stops 10 rest) :
    (dottedName name rest).outcome = .ok (name, rest) := by
  refine dottedName_of_ne_dot fun hdot => ?_
  obtain ⟨r, rfl⟩ := List.head?_eq_some_iff.1 hdot
  exact not_stops_cons (k := 10) rfl (Nat.le_refl _) h

/-- A dotted name starts with a word that is free, and reading it comes out where reading
goes on with the whole name. -/
theorem dottedName_complete {ts : List Token} {name : String} (h : DottedName ts name) :
    ∃ w tail, ts = .name w :: tail ∧ w ∉ reservedWords ∧
      ∀ rest, (dottedName w (tail ++ rest)).outcome = (dottedName name rest).outcome := by
  induction h with
  | @word w hfree => exact ⟨w, [], rfl, hfree, fun rest => rfl⟩
  | @dotted ts name part h ih =>
    obtain ⟨w, tail, rfl, hfree, hgoesOn⟩ := ih
    refine ⟨w, tail ++ [.mark .dot, .name part], rfl, hfree, ?_⟩
    intro rest
    rw [List.append_assoc, hgoesOn]
    exact dottedName_dot name part rest

/-- A name is read to its end before the parser looks for a call. -/
theorem primary_dottedName {ts rest : List Token} {name : String} (h : DottedName ts name) :
    (primary (ts ++ rest)).outcome = (dottedName name rest).outcome >>= fun (name, rest) =>
      match rest with
      | .mark .leftParen :: r' => (arguments r').outcome >>= fun (es, rest) =>
        (expectMark .rightParen rest).outcome >>= fun (_, rest) => .ok (.call name es none, rest)
      | rest => .ok (.symbol name none, rest) := by
  obtain ⟨w, tail, rfl, hfree, hgoesOn⟩ := dottedName_complete h
  simp only [reservedWords, List.mem_cons, not_or] at hfree
  rw [List.cons_append, primary_name, if_neg hfree.1, if_neg hfree.2.1, if_neg hfree.2.2]
  exact congrArg (· >>= _) (hgoesOn rest)

/-! ## Completeness -/

/-- What may follow a phrase of a rule where the parser reads one. -/
def Follows : Rule → List Token → Prop
  | .subscript, rest => rest.head? = some (.mark .rightBracket)
  | .slicePart, rest => endsPart rest
  | .arguments, rest => rest.head? = some (.mark .rightParen)
  | .argumentList, rest => rest.head? = some (.mark .rightParen)
  | rule, rest => Stops rule.strength rest

/-- The phrase is read from the tokens, or, where the rule has a loop, the loop goes on with
it. -/
def Complete : Rule → List Token → Phrase → Prop
  | .chain level, ts, .expr e => ∀ rest, Stops (level.strength + 1) rest →
    (chain level (ts ++ rest)).outcome = (chainTail level e rest).outcome
  | .postfixed, ts, .expr e => ∀ rest, Stops 10 rest →
    (postfixed (ts ++ rest)).outcome = (subscripts e rest).outcome
  | rule, ts, phrase => ∀ rest, Follows rule rest → Reads (ts ++ rest) rest rule phrase

/-- What is complete is read by the function of its rule, loops included. -/
theorem Complete.reads {rule : Rule} {ts rest : List Token} {phrase : Phrase}
    (h : Complete rule ts phrase) (hfollows : Follows rule rest) :
    Reads (ts ++ rest) rest rule phrase := by
  cases rule with
  | chain level =>
    cases phrase with
    | expr e => exact (h rest (hfollows.mono (Nat.le_succ _))).trans (chainTail_of_stops hfollows)
    | _ => exact h rest hfollows
  | postfixed =>
    cases phrase with
    | expr e => exact (h rest (hfollows.mono (by decide))).trans (subscripts_of_stops hfollows)
    | _ => exact h rest hfollows
  | _ => exact h rest hfollows

/-- The operand of a level is read where no operator of a tighter level follows it. -/
theorem Complete.operand {level : Level} {ts rest : List Token} {e : Expr}
    (h : Complete level.operandRule ts (.expr e)) (hstops : Stops (level.strength + 1) rest) :
    (operand level (ts ++ rest)).outcome = .ok (e, rest) := by
  rw [operand_eq_ok_iff]
  refine h.reads ?_
  cases level <;> exact hstops

/-! One lemma for each rule with a look at the next token. -/

/-- A chain with no comparison behind it is a comparison of its own. -/
theorem comparison_single {ts rest : List Token} {a : Expr}
    (h : (chain .or ts).outcome = .ok (a, rest)) (hstops : Stops 1 rest) :
    (comparison ts).outcome = .ok (a, rest) := by
  rw [comparison_outcome]
  refine bind_eq_ok_iff.2 ⟨_, h, ?_⟩
  cases rest with
  | nil => rfl
  | cons t r =>
    dsimp only
    cases hop : comparison? t with
    | none => rfl
    | some op =>
      exact absurd hstops (not_stops_cons (strength_of_comparison? hop) (Nat.le_refl _))

/-- Two chains with a comparison between them are compared, if no other comparison follows. -/
theorem comparison_compare {ts right rest : List Token} {t : Token} {op : BinaryOp} {a b : Expr}
    (h : (chain .or ts).outcome = .ok (a, t :: right)) (hop : comparison? t = some op)
    (h' : (chain .or right).outcome = .ok (b, rest)) (hstops : Stops 1 rest) :
    (comparison ts).outcome = .ok (.binary op a b, rest) := by
  have hsingle : ¬ rest.head?.any (fun u => (comparison? u).isSome) = true := by
    cases rest with
    | nil => simp
    | cons u r =>
      cases hu : comparison? u with
      | none => simp [hu]
      | some op' =>
        exact absurd hstops (not_stops_cons (strength_of_comparison? hu) (Nat.le_refl _))
  rw [comparison_outcome]
  refine bind_eq_ok_iff.2 ⟨_, h, ?_⟩
  dsimp only
  rw [hop]
  refine bind_eq_ok_iff.2 ⟨_, h', ?_⟩
  dsimp only
  rw [if_neg hsingle]

theorem unary_unsigned {ts rest : List Token} {a : Expr}
    (h : (power ts).outcome = .ok (a, rest)) : (unary ts).outcome = .ok (a, rest) := by
  cases ts with
  | nil => rw [unary_nil]; exact h
  | cons t r =>
    rw [unary_cons]
    cases hop : unary? t with
    | none => exact h
    | some op => exact absurd h (power_sign_ne_ok hop r _)

/-- An operand with no power sign behind it is a power of its own. -/
theorem power_base {ts rest : List Token} {a : Expr}
    (h : (postfixed ts).outcome = .ok (a, rest)) (hstops : Stops 8 rest) :
    (power ts).outcome = .ok (a, rest) := by
  rw [power_outcome]
  refine bind_eq_ok_iff.2 ⟨_, h, ?_⟩
  dsimp only
  split
  · exact absurd hstops (not_stops_cons (k := 8) rfl (Nat.le_refl _))
  · rfl

/-- A chain goes on with an operator and one more operand. -/
theorem chain_further {level : Level} {ts right rest : List Token} {t : Token} {op : BinaryOp}
    {a b : Expr} (h : (chain level ts).outcome = (chainTail level a (t :: right)).outcome)
    (hop : level.operator? t = some op) (h' : (operand level right).outcome = .ok (b, rest)) :
    (chain level ts).outcome = (chainTail level (.binary op a b) rest).outcome := by
  rw [h, chainTail_cons, hop]
  dsimp only
  rw [h']
  rfl

theorem unary_signed {t : Token} {ts rest : List Token} {op : UnaryOp} {e : Expr}
    (hop : unary? t = some op) (h : (unary ts).outcome = .ok (e, rest)) :
    (unary (t :: ts)).outcome = .ok (.unary op e, rest) := by
  rw [unary_cons, hop]
  exact bind_eq_ok_iff.2 ⟨_, h, rfl⟩

theorem power_raised {ts right rest : List Token} {a b : Expr}
    (h : (postfixed ts).outcome = .ok (a, .mark .starStar :: right))
    (h' : (unary right).outcome = .ok (b, rest)) :
    (power ts).outcome = .ok (.binary .pow a b, rest) := by
  rw [power_outcome]
  refine bind_eq_ok_iff.2 ⟨_, h, ?_⟩
  exact bind_eq_ok_iff.2 ⟨_, h', rfl⟩

/-- A subscript in brackets is attached, and the loop goes on behind the closing bracket. -/
theorem subscripts_closed {r rest : List Token} {e : Expr} {s : Subscript}
    (h : (subscript r).outcome = .ok (s, .mark .rightBracket :: rest)) :
    (subscripts e (.mark .leftBracket :: r)).outcome =
      (subscripts (e.subscript s) rest).outcome := by
  rw [subscripts_bracket, h]
  simp [expectMark_outcome, bind, Except.bind]

theorem slicePart_given {ts rest : List Token} {a : Expr}
    (h : (comparison ts).outcome = .ok (a, rest)) :
    (slicePart ts).outcome = .ok (some a, rest) := by
  rw [slicePart_outcome, if_neg (not_endsPart_of_comparison h)]
  exact bind_eq_ok_iff.2 ⟨_, h, rfl⟩

/-- A part without a colon after it is a position. -/
theorem subscript_index {ts rest : List Token} {a : Expr}
    (h : (slicePart ts).outcome = .ok (some a, rest))
    (hbracket : rest.head? = some (.mark .rightBracket)) :
    (subscript ts).outcome = .ok (.index a, rest) := by
  rw [subscript_outcome]
  refine bind_eq_ok_iff.2 ⟨_, h, ?_⟩
  obtain ⟨r, rfl⟩ := List.head?_eq_some_iff.1 hbracket
  rfl

/-- Two parts are the bounds of a slice without a step. -/
theorem subscript_bounds {ts right rest : List Token} {a b : Option Expr}
    (h : (slicePart ts).outcome = .ok (a, .mark .colon :: right))
    (h' : (slicePart right).outcome = .ok (b, rest))
    (hbracket : rest.head? = some (.mark .rightBracket)) :
    (subscript ts).outcome = .ok (.slice a b none, rest) := by
  rw [subscript_outcome]
  refine bind_eq_ok_iff.2 ⟨_, h, ?_⟩
  refine bind_eq_ok_iff.2 ⟨_, h', ?_⟩
  obtain ⟨r, rfl⟩ := List.head?_eq_some_iff.1 hbracket
  rfl

/-- The third part of a slice is its step. -/
theorem subscript_stepped {ts middle right rest : List Token} {a b c : Option Expr}
    (h : (slicePart ts).outcome = .ok (a, .mark .colon :: middle))
    (h' : (slicePart middle).outcome = .ok (b, .mark .colon :: right))
    (h'' : (slicePart right).outcome = .ok (c, rest)) :
    (subscript ts).outcome = .ok (.slice a b c, rest) := by
  rw [subscript_outcome]
  refine bind_eq_ok_iff.2 ⟨_, h, ?_⟩
  refine bind_eq_ok_iff.2 ⟨_, h', ?_⟩
  exact bind_eq_ok_iff.2 ⟨_, h'', rfl⟩

/-- A name without a parenthesis after it is a symbol. -/
theorem primary_symbol {ts rest : List Token} {name : String} (hname : DottedName ts name)
    (hstops : Stops 10 rest) : (primary (ts ++ rest)).outcome = .ok (.symbol name none, rest) := by
  rw [primary_dottedName hname, dottedName_of_stops hstops]
  change (match rest with | .mark .leftParen :: r' => _ | rest => _) = _
  split
  · next r _ => exact absurd hstops (@not_stops_cons 10 10 _ r rfl (Nat.le_refl _))
  · rfl

/-- A name with arguments between parentheses after it is a call. -/
theorem primary_call {ts r rest : List Token} {name : String} {es : List Expr}
    (hname : DottedName ts name)
    (h : (arguments r).outcome = .ok (es, .mark .rightParen :: rest)) :
    (primary (ts ++ .mark .leftParen :: r)).outcome = .ok (.call name es none, rest) := by
  rw [primary_dottedName hname, dottedName_of_ne_dot (by simp)]
  change ((arguments r).outcome >>= _) = _
  refine bind_eq_ok_iff.2 ⟨_, h, ?_⟩
  exact bind_eq_ok_iff.2 ⟨_, expectMark_eq_ok_iff.2 rfl, rfl⟩

theorem primary_parens {r rest : List Token} {e : Expr}
    (h : (comparison r).outcome = .ok (e, .mark .rightParen :: rest)) :
    (primary (.mark .leftParen :: r)).outcome = .ok (e, rest) := by
  rw [primary_leftParen]
  refine bind_eq_ok_iff.2 ⟨_, h, ?_⟩
  exact bind_eq_ok_iff.2 ⟨_, expectMark_eq_ok_iff.2 rfl, rfl⟩

theorem arguments_some {ts rest : List Token} {es : List Expr}
    (h : (argumentList ts).outcome = .ok (es, rest)) :
    (arguments ts).outcome = .ok (es, rest) := by
  rw [arguments_outcome, if_neg (argumentList_ne_rightParen h)]
  exact h

/-- The list of arguments ends in front of a parenthesis. -/
theorem argumentList_last {ts rest : List Token} {e : Expr}
    (h : (comparison ts).outcome = .ok (e, rest))
    (hparen : rest.head? = some (.mark .rightParen)) :
    (argumentList ts).outcome = .ok ([e], rest) := by
  rw [argumentList_outcome]
  refine bind_eq_ok_iff.2 ⟨_, h, ?_⟩
  obtain ⟨r, rfl⟩ := List.head?_eq_some_iff.1 hparen
  rfl

/-- The list of arguments goes on behind a comma. -/
theorem argumentList_more {ts right rest : List Token} {e : Expr} {es : List Expr}
    (h : (comparison ts).outcome = .ok (e, .mark .comma :: right))
    (h' : (argumentList right).outcome = .ok (es, rest)) :
    (argumentList ts).outcome = .ok (e :: es, rest) := by
  rw [argumentList_outcome]
  refine bind_eq_ok_iff.2 ⟨_, h, ?_⟩
  exact bind_eq_ok_iff.2 ⟨_, h', rfl⟩

theorem stops_of_head? {n : Nat} {m : Mark} {rest : List Token}
    (h : rest.head? = some (.mark m)) (hnone : (Token.mark m).strength? = none) :
    Stops n rest := by
  obtain ⟨r, rfl⟩ := List.head?_eq_some_iff.1 h
  exact stops_of_none hnone

/-- What ends a bound of a slice stops any loop. -/
theorem stops_of_endsPart {n : Nat} {rest : List Token} (h : endsPart rest) : Stops n rest := by
  rcases h with hcolon | hbracket
  · exact stops_of_head? hcolon rfl
  · exact stops_of_head? hbracket rfl

/-- Whatever derives is read. -/
theorem complete {rule : Rule} {ts : List Token} {phrase : Phrase} (h : Derives rule ts phrase) :
    Complete rule ts phrase := by
  -- By rule induction. In each case what follows the phrase does not go on with any part of it, and
  -- so every part is read by the hypothesis for it, in front of what follows it in the phrase.
  induction h with
  | single _ ih =>
    intro rest hstops
    exact comparison_single (ih.reads (hstops.mono (by decide))) hstops
  | @compare left right t op a b _ hop _ ihl ihr =>
    intro rest hstops
    have htail : Stops 2 (t :: (right ++ rest)) :=
      stops_cons (strength_of_comparison? hop) (by decide)
    simp only [List.append_assoc, List.cons_append]
    exact comparison_compare (ihl.reads htail) hop (ihr.reads (hstops.mono (by decide))) hstops
  | @first level ts e _ ih =>
    intro rest hstops
    rw [chain_outcome, ih.operand hstops]
    rfl
  | @further level left right t op a b _ hop _ ihl ihr =>
    intro rest hstops
    have htail : Stops (level.strength + 1) (t :: (right ++ rest)) :=
      stops_cons (strength_of_operator? hop) (Nat.lt_succ_self _)
    rw [List.append_assoc, List.cons_append]
    exact chain_further (ihl _ htail) hop (ihr.operand hstops)
  | unsigned _ ih =>
    intro rest hstops
    exact unary_unsigned (ih.reads (hstops.mono (by decide)))
  | signed hop _ ih =>
    intro rest hstops
    exact unary_signed hop (ih.reads hstops)
  | base _ ih =>
    intro rest hstops
    exact power_base (ih.reads (hstops.mono (by decide))) hstops
  | @raised left right a b _ _ ihl ihr =>
    intro rest hstops
    have htail : Stops 9 (.mark .starStar :: (right ++ rest)) :=
      stops_cons (k := 8) rfl (by decide)
    simp only [List.append_assoc, List.cons_append]
    exact power_raised (ihl.reads htail) (ihr.reads (stops_unary hstops))
  | atom _ ih =>
    intro rest hstops
    rw [postfixed_outcome, ih.reads hstops]
    rfl
  | @subscripted ts inside e e' s _ _ hattached ihe ihs =>
    intro rest hstops
    obtain rfl := subscripted_iff.1 hattached
    have hinner : (subscript (inside ++ .mark .rightBracket :: rest)).outcome =
        .ok (s, .mark .rightBracket :: rest) := ihs.reads rfl
    rw [List.append_assoc, List.cons_append, ihe _ (stops_cons (k := 9) rfl (by decide)),
      List.append_assoc, List.singleton_append, subscripts_closed hinner]
  | index _ ih =>
    intro rest hbracket
    exact subscript_index (slicePart_given (ih.reads (stops_of_head? hbracket rfl))) hbracket
  | bounds _ _ ihl ihu =>
    intro rest hbracket
    simp only [List.append_assoc, List.cons_append]
    exact subscript_bounds (ihl.reads (.inl rfl)) (ihu.reads (.inr hbracket)) hbracket
  | stepped _ _ _ ihl ihu ihs =>
    intro rest hbracket
    simp only [List.append_assoc, List.cons_append]
    exact subscript_stepped (ihl.reads (.inl rfl)) (ihu.reads (.inl rfl))
      (ihs.reads (.inr hbracket))
  | omitted =>
    intro rest hends
    change (slicePart rest).outcome = _
    rw [slicePart_outcome]
    exact if_pos hends
  | given _ ih =>
    intro rest hends
    exact slicePart_given (ih.reads (stops_of_endsPart hends))
  | number =>
    intro rest _
    exact primary_number _ _
  | text =>
    intro rest _
    exact primary_text _ _
  | true =>
    intro rest _
    exact primary_name _ _
  | false =>
    intro rest _
    exact primary_name _ _
  | symbol hname =>
    intro rest hstops
    exact primary_symbol hname hstops
  | call hname _ ih =>
    intro rest _
    simp only [List.append_assoc, List.cons_append, List.nil_append]
    exact primary_call hname (ih.reads rfl)
  | parens _ ih =>
    intro rest _
    simp only [List.append_assoc, List.cons_append, List.nil_append]
    exact primary_parens (ih.reads (stops_of_none (r := rest) rfl))
  | noArguments =>
    intro rest hparen
    change (arguments rest).outcome = _
    rw [arguments_outcome]
    exact if_pos hparen
  | someArguments _ ih =>
    intro rest hparen
    exact arguments_some (ih.reads hparen)
  | lastArgument _ ih =>
    intro rest hparen
    exact argumentList_last (ih.reads (stops_of_head? hparen rfl)) hparen
  | @moreArguments ts us e es _ _ ihe ihs =>
    intro rest hparen
    simp only [List.append_assoc, List.cons_append]
    exact argumentList_more (ihe.reads (stops_of_none (r := us ++ rest) rfl)) (ihs.reads hparen)

/-! ## The language of the parser -/

/-- A comparison is read from all of the tokens exactly if they derive it. -/
theorem comparison_eq_ok_iff {ts : List Token} {e : Expr} :
    (comparison ts).outcome = .ok (e, []) ↔ Derives .comparison ts (.expr e) := by
  constructor
  · intro h
    obtain ⟨used, rfl, hderived⟩ := sound ts .comparison (.expr e) [] h
    simpa using hderived
  · intro h
    have hread : Reads (ts ++ []) [] _ _ := (complete h).reads trivial
    rw [List.append_nil] at hread
    exact hread

/-- Every expression takes at least one token. -/
theorem ne_nil_of_derives {ts : List Token} {e : Expr} (h : Derives .comparison ts (.expr e)) :
    ts ≠ [] := by
  rintro rfl
  exact absurd (outcome_shorter (comparison_eq_ok_iff.2 h)) (Nat.lt_irrefl 0)

end ColumnFlow.Parser

namespace ColumnFlow.Expr

/-- The tokens of a text are accepted exactly if they derive a comparison. -/
theorem ofTokens_eq_ok_iff {ts : List Token} {e : Expr} :
    ofTokens ts = .ok e ↔ Derives .comparison ts (.expr e) := by
  rw [← Parser.comparison_eq_ok_iff]
  constructor
  · intro h
    unfold ofTokens at h
    split at h
    · cases h
    · obtain ⟨r, hr, h⟩ := bind_eq_ok_iff.1 h
      rw [hr]
      split at h
      · cases h
        simp_all
      · cases h
      · cases h
      · cases h
  · intro h
    have hnonempty := Parser.ne_nil_of_derives (Parser.comparison_eq_ok_iff.1 h)
    unfold ofTokens
    rw [if_neg (by simpa using hnonempty)]
    obtain ⟨⟨a, rest, hshorter⟩, hr, heq⟩ := map_eq_ok_iff.1 h
    cases heq
    rw [hr]
    rfl

/-- A text is accepted exactly if it is scanned into tokens that derive the expression. -/
theorem parse_eq_ok_iff {text : String} {e : Expr} :
    parse text = .ok e ↔ ∃ lexemes, Token.scan 0 text.toList = .ok lexemes ∧
      Derives .comparison (lexemes.map Lexeme.token) (.expr e) := by
  unfold parse ofChars
  rw [bind_eq_ok_iff]
  refine exists_congr fun lexemes => and_congr_right fun _ => ?_
  rw [← ofTokens_eq_ok_iff]
  cases ofTokens (lexemes.map Lexeme.token) with
  | ok a => simp [pure, Except.pure]
  | error refusal => simp

/-- The parser accepts the lists of tokens that derive an expression and returns that
expression. -/
theorem parser_accepts_grammar :
    (∀ ts e, ofTokens ts = .ok e ↔ Derives .comparison ts (.expr e)) ∧
    (∀ text e, parse text = .ok e ↔ ∃ lexemes, Token.scan 0 text.toList = .ok lexemes ∧
      Derives .comparison (lexemes.map Lexeme.token) (.expr e)) ∧
    (∀ ts e e', Derives .comparison ts (.expr e) → Derives .comparison ts (.expr e') → e = e') ∧
    ∀ text, (∃ error, parse text = .error error) ↔
      ∀ lexemes, Token.scan 0 text.toList = .ok lexemes →
        ¬ ∃ e, Derives .comparison (lexemes.map Lexeme.token) (.expr e) := by
  refine ⟨fun _ _ => ofTokens_eq_ok_iff, fun _ _ => parse_eq_ok_iff, ?_, ?_⟩
  · intro ts e e' h h'
    have hsame : (.ok e : Except Refusal Expr) = .ok e' :=
      (ofTokens_eq_ok_iff.2 h).symm.trans (ofTokens_eq_ok_iff.2 h')
    cases hsame
    rfl
  · intro text
    rw [← not_ok_iff]
    constructor
    · rintro hrejected lexemes hscanned ⟨e, hderived⟩
      exact hrejected e (parse_eq_ok_iff.2 ⟨lexemes, hscanned, hderived⟩)
    · intro hnone e haccepted
      obtain ⟨lexemes, hscanned, hderived⟩ := parse_eq_ok_iff.1 haccepted
      exact hnone lexemes hscanned ⟨e, hderived⟩

end ColumnFlow.Expr
