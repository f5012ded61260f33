import ColumnFlow.Proofs.Parsing.Lookahead
import ColumnFlow.Proofs.Tiling

/-!
# Where syntax errors point

A text that is no expression is refused at an offset. The tokens in front of the first offending
one can go on to those of an expression: they are written again, each in front of a blank, and
what they lack is written behind them. The offset is that of the offending token, except that a
missing name is noticed behind the token that stands in its place.
-/

namespace ColumnFlow

/-! ## Tokens in front of blanks -/

/-- A token can be written in front of a blank. -/
def Token.Spelled (t : Token) : Prop :=
  ∃ source : List Char, ∀ rest us, Scans rest us → Scans (source ++ ' ' :: rest) (t :: us)

theorem spelled_of_scan {offset : Nat} {cs : List Char} {lexemes : List Lexeme}
    (hscanned : Token.scan offset cs = .ok lexemes) :
    ∀ t ∈ lexemes.map Lexeme.token, t.Spelled := by
  intro t hmem
  obtain ⟨l, hamong, rfl⟩ := List.mem_map.1 hmem
  obtain ⟨_, behind, -, -, hreads⟩ := (scan_eq_ok_iff.1 hscanned).exists_place l hamong
  refine ⟨l.source, fun rest us hscans => ?_⟩
  have hblank : isBlank ' ' = true := rfl
  exact (hreads.of_stopsAlike (stopsAlike_blank hblank behind rest)).scans
    (scans_blank hblank hscans)

theorem spelled_of_closes {t : Token} (hcloses : t.Closes) : t.Spelled := by
  rcases hcloses with rfl | rfl | rfl
  · refine ⟨['x'], fun rest us hbehind => ?_⟩
    exact scans_name (w := "x") (by decide) (by rintro _ ⟨⟩; rfl) (scans_blank rfl hbehind)
  · exact ⟨[')'], fun rest us hbehind => scans_rightParen (scans_blank rfl hbehind)⟩
  · exact ⟨[']'], fun rest us hbehind => scans_rightBracket (scans_blank rfl hbehind)⟩

theorem exists_scans {ts : List Token} (hspelled : ∀ t ∈ ts, t.Spelled) : ∃ cs, Scans cs ts := by
  induction ts with
  | nil => exact ⟨[], scans_nil⟩
  | cons t ts ih =>
    obtain ⟨⟨source, hfirst⟩, hrest⟩ := List.forall_mem_cons.1 hspelled
    obtain ⟨cs, hbehind⟩ := ih hrest
    exact ⟨source ++ ' ' :: cs, hfirst cs ts hbehind⟩

/-! ## Tokens of expressions -/

/-- The tokens are those of a text that is read as an expression. -/
def Accepted (ts : List Token) : Prop :=
  ∃ text e, Scans text.toList ts ∧ Expr.parse text = .ok e

/-- The tokens can go on to those of an expression. -/
def CanGoOn (ts : List Token) : Prop := ∃ more, Accepted (ts ++ more)

theorem derives_of_accepted {ts : List Token} (h : Accepted ts) :
    ∃ e, Derives .comparison ts (.expr e) := by
  obtain ⟨text, e, hscans, hparsed⟩ := h
  obtain ⟨lexemes, hscanned, hderived⟩ := Expr.parse_eq_ok_iff.1 hparsed
  obtain ⟨lexemes', hscanned', rfl⟩ := hscans 0
  cases hscanned.symm.trans hscanned'
  exact ⟨e, hderived⟩

theorem accepted_of_derives {ts : List Token} {e : Expr} (hspelled : ∀ t ∈ ts, t.Spelled)
    (hderived : Derives .comparison ts (.expr e)) : Accepted ts := by
  obtain ⟨cs, hscans⟩ := exists_scans hspelled
  obtain ⟨lexemes, hscanned, rfl⟩ := hscans 0
  refine ⟨String.ofList cs, e, by rwa [String.toList_ofList], ?_⟩
  exact Expr.parse_eq_ok_iff.2 ⟨lexemes, by rwa [String.toList_ofList], hderived⟩

/-- Tokens of a text that can go on in the grammar can do so in a text. -/
theorem canGoOn_of_viable {ts : List Token} (hspelled : ∀ t ∈ ts, t.Spelled)
    (hviable : Viable .comparison Phrase.expr ts) : CanGoOn ts := by
  obtain ⟨more, e, hcloses, hderived⟩ := hviable
  refine ⟨more, accepted_of_derives (e := e) ?_ hderived⟩
  exact List.forall_mem_append.2 ⟨hspelled, fun t hmem => spelled_of_closes (hcloses t hmem)⟩

theorem CanGoOn.of_append {ts : List Token} (us : List Token) (h : CanGoOn (ts ++ us)) :
    CanGoOn ts := by
  obtain ⟨more, haccepted⟩ := h
  exact ⟨us ++ more, by rwa [← List.append_assoc]⟩

/-! ## Offsets -/

/-- The tokens of a text start one after the other, and inside the text. -/
theorem offsets_of_scan {offset : Nat} {cs : List Char} {lexemes : List Lexeme}
    (hscanned : Token.scan offset cs = .ok lexemes) :
    (lexemes.map Lexeme.offset).Pairwise (· < ·) ∧
      ∀ l ∈ lexemes, offset ≤ l.offset ∧ l.offset < offset + byteLength cs := by
  have htiled := scan_eq_ok_iff.1 hscanned
  have hinside : ∀ l ∈ lexemes, offset ≤ l.offset ∧ l.offset < l.stop ∧
      l.stop ≤ offset + byteLength cs := by
    intro l hmem
    obtain ⟨front, back, rfl, hstart, hreads⟩ := htiled.exists_place l hmem
    have hpositive := hreads.offset_lt_stop
    rw [byteLength_append, byteLength_append]
    unfold Lexeme.stop at *
    omega
  refine ⟨List.pairwise_map.2 (htiled.pairwise.imp_of_mem fun hmem _ hstop => ?_), fun l hmem => ?_⟩
  · exact Nat.lt_of_lt_of_le (hinside _ hmem).2.1 hstop
  · obtain ⟨hfrom_, hstart, hstop⟩ := hinside l hmem
    exact ⟨hfrom_, Nat.lt_of_lt_of_le hstart hstop⟩

/-- The offset at which the tokens start in a text of the length. -/
def startOf (length : Nat) : List Lexeme → Nat
  | [] => length
  | l :: _ => l.offset

theorem offsetOf_append (before after : List Lexeme) (length : Nat) :
    Expr.offsetOf (before ++ after) length after.length = startOf length after := by
  unfold Expr.offsetOf
  rw [List.length_append, Nat.add_sub_cancel, List.drop_left]
  rfl

/-- A token that starts later stands behind. -/
theorem exists_between {before after before' after' : List Lexeme} {l l' : Lexeme}
    (hordered : ((before ++ l :: after).map Lexeme.offset).Pairwise (· < ·))
    (hsame : before ++ l :: after = before' ++ l' :: after') (hlater : l.offset < l'.offset) :
    ∃ between, before' = before ++ l :: between := by
  rcases List.append_eq_append_iff.1 hsame with ⟨between, hsplit, hrest⟩ | ⟨between, hsplit, hrest⟩
  · cases between with
    | nil =>
      cases hrest
      exact absurd hlater (Nat.lt_irrefl _)
    | cons first between =>
      cases hrest
      exact ⟨between, hsplit⟩
  · cases between with
    | nil =>
      cases hrest
      exact absurd hlater (Nat.lt_irrefl _)
    | cons first between =>
      cases hrest
      subst hsplit
      rw [List.map_append] at hordered
      have hearlier : l'.offset < l.offset :=
        (List.pairwise_append.1 hordered).2.2 _ (by simp) _ (by simp)
      exact absurd hlater (Nat.lt_asymm hearlier)

/-! ## The place of an error -/

/-- The offset is that of the first token with which those before it cannot go on; or it is the
length of the text, and all tokens can go on to those of an expression but are not. -/
def PointsAtOffence (lexemes : List Lexeme) (length offset : Nat) : Prop :=
  (∃ before l after, lexemes = before ++ l :: after ∧ offset = l.offset ∧
    CanGoOn (before.map Lexeme.token) ∧ ¬ CanGoOn ((before ++ [l]).map Lexeme.token)) ∨
  (offset = length ∧ ¬ Accepted (lexemes.map Lexeme.token) ∧ CanGoOn (lexemes.map Lexeme.token))

namespace Expr

variable {text : String} {lexemes : List Lexeme} {error : SyntaxError}

theorem parse_eq_error (hscanned : Token.scan 0 text.toList = .ok lexemes)
    (hnonempty : lexemes ≠ []) (hrejected : parse text = .error error) :
    ∃ refusal, ofTokens (lexemes.map Lexeme.token) = .error refusal ∧
      error.reason = refusal.reason ∧
      error.offset = offsetOf lexemes (byteLength text.toList) refusal.unread.length := by
  unfold parse ofChars at hrejected
  rw [hscanned, ok_bind] at hrejected
  cases htokens : ofTokens (lexemes.map Lexeme.token) with
  | ok e =>
    rw [htokens] at hrejected
    cases hrejected
  | error refusal =>
    rw [htokens] at hrejected
    dsimp only at hrejected
    rw [if_neg (by simpa using hnonempty)] at hrejected
    cases hrejected
    exact ⟨refusal, rfl, rfl, rfl⟩

/-- A text that is no expression has a first offending token, or ends too early, and its error
points there or, where a name is missing, behind the offending token. -/
theorem exists_offence (hscanned : Token.scan 0 text.toList = .ok lexemes)
    (hnonempty : lexemes ≠ []) (hrejected : parse text = .error error) :
    ∃ before after, lexemes = before ++ after ∧ CanGoOn (before.map Lexeme.token) ∧
      (∀ l rest, after = l :: rest → ¬ CanGoOn ((before ++ [l]).map Lexeme.token)) ∧
      ¬ Accepted (lexemes.map Lexeme.token) ∧
      error.offset = startOf (byteLength text.toList) (unreadFrom error.reason after) := by
  obtain ⟨refusal, hrefused, hreason, hoffset⟩ := parse_eq_error hscanned hnonempty hrejected
  obtain ⟨used, rest, hsplit, hviable, hunread, hnone⟩ :=
    ofTokens_eq_error (by simpa using hnonempty) hrefused
  obtain ⟨before, after, rfl, rfl, rfl⟩ := List.map_eq_append_iff.1 hsplit
  have hspelled := spelled_of_scan hscanned
  rw [List.map_append, List.forall_mem_append] at hspelled
  refine ⟨before, after, rfl, canGoOn_of_viable hspelled.1 hviable, ?_, ?_, ?_⟩
  · rintro l rest rfl ⟨more, haccepted⟩
    obtain ⟨e, hderived⟩ := derives_of_accepted haccepted
    refine hnone (l.token :: more) rfl e ?_
    simpa using hderived
  · intro haccepted
    obtain ⟨e, hderived⟩ := derives_of_accepted haccepted
    exact hnone _ rfl e (by rwa [← List.map_append])
  · obtain ⟨skipped, hwhole⟩ := exists_skipped error.reason after
    rw [hoffset, hunread, ← hreason, unreadFrom_map, List.length_map]
    nth_rewrite 1 [← hwhole]
    rw [← List.append_assoc, offsetOf_append]

/-- Behind a token with which the tokens cannot go on, the place of an error comes too late. -/
theorem not_pointsAtOffence (before : List Lexeme) (l : Lexeme) (after : List Lexeme)
    {length : Nat} (hordered : ((before ++ l :: after).map Lexeme.offset).Pairwise (· < ·))
    (hinside : l.offset < length) (hstuck : ¬ CanGoOn ((before ++ [l]).map Lexeme.token)) :
    ¬ PointsAtOffence (before ++ l :: after) length (startOf length after) := by
  rintro (⟨before', l', after', hsplit, hplace, hgoesOn, -⟩ | ⟨-, -, hgoesOn⟩)
  · have hlater : l.offset < l'.offset := by
      rw [← hplace]
      cases after with
      | nil => exact hinside
      | cons next rest =>
        rw [List.map_append] at hordered
        have hbehind := (List.pairwise_append.1 hordered).2.1
        exact (List.pairwise_cons.1 hbehind).1 _ List.mem_cons_self
    obtain ⟨between, rfl⟩ := exists_between hordered hsplit hlater
    refine hstuck (CanGoOn.of_append (between.map Lexeme.token) ?_)
    simpa using hgoesOn
  · refine hstuck (CanGoOn.of_append (after.map Lexeme.token) ?_)
    simpa using hgoesOn

/-- The error of a text that is no expression points at the first offending token, or at the end of
a text that ends too early, except where another token stands in the place of a name after a point:
then it points at the token behind that one, or at the end. -/
theorem parse_offset (text : String) (lexemes : List Lexeme) (error : SyntaxError)
    (hscanned : Token.scan 0 text.toList = .ok lexemes) (hnonempty : lexemes ≠ [])
    (hrejected : parse text = .error error) :
    (PointsAtOffence lexemes (byteLength text.toList) error.offset ↔
      (error.reason = .expectedName → CanGoOn (lexemes.map Lexeme.token))) ∧
    (error.reason = .expectedName → ¬ CanGoOn (lexemes.map Lexeme.token) →
      ∃ before l after, lexemes = before ++ l :: after ∧ CanGoOn (before.map Lexeme.token) ∧
        ¬ CanGoOn ((before ++ [l]).map Lexeme.token) ∧
        error.offset = startOf (byteLength text.toList) after) := by
  obtain ⟨hordered, hinside⟩ := offsets_of_scan hscanned
  obtain ⟨before, after, rfl, hgoesOn, hstuck, hunaccepted, hoffset⟩ :=
    exists_offence hscanned hnonempty hrejected
  -- Either the text ends where more was expected, or there is a token that nothing can go on with.
  cases after with
  | nil =>
    have hatEnd : error.offset = byteLength text.toList := by
      rw [hoffset]
      cases error.reason <;> rfl
    rw [List.append_nil] at hunaccepted ⊢
    refine ⟨iff_of_true (.inr ⟨hatEnd, hunaccepted, hgoesOn⟩) fun _ => hgoesOn, ?_⟩
    exact fun _ hnone => absurd hgoesOn hnone
  | cons l after =>
    have hnone : ¬ CanGoOn ((before ++ l :: after).map Lexeme.token) := by
      intro hwhole
      refine hstuck l after rfl (CanGoOn.of_append (after.map Lexeme.token) ?_)
      simpa using hwhole
    by_cases hname : error.reason = .expectedName
    · rw [hname] at hoffset
      have hwithin := (hinside l (by simp)).2
      rw [Nat.zero_add] at hwithin
      refine ⟨iff_of_false ?_ fun hlaw => hnone (hlaw hname), fun _ _ => ?_⟩
      · rw [hoffset]
        exact not_pointsAtOffence before l after hordered hwithin (hstuck l after rfl)
      · exact ⟨before, l, after, rfl, hgoesOn, hstuck l after rfl, hoffset⟩
    · rw [unreadFrom_of_ne hname] at hoffset
      refine ⟨iff_of_true (.inl ?_) fun heq => absurd heq hname, fun heq => absurd heq hname⟩
      exact ⟨before, l, after, rfl, hoffset, hgoesOn, hstuck l after rfl⟩

/-- Two names side by side: the second one is the first offending token. -/
theorem parse_offset_second_name :
    let lexemes : List Lexeme := [⟨.name "a", 0, ['a']⟩, ⟨.name "b", 2, ['b']⟩]
    Token.scan 0 "a b".toList = .ok lexemes ∧ lexemes ≠ [] ∧
      parse "a b" = .error ⟨2, .unexpectedToken (.name "b")⟩ ∧ PointsAtOffence lexemes 3 2 := by
  intro lexemes
  have hscanned : Token.scan 0 "a b".toList = .ok lexemes := by with_unfolding_all rfl
  have hnonempty : lexemes ≠ [] := List.cons_ne_nil _ _
  have hrejected : parse "a b" = .error ⟨2, .unexpectedToken (.name "b")⟩ := by
    with_unfolding_all rfl
  refine ⟨hscanned, hnonempty, hrejected, ?_⟩
  exact (parse_offset "a b" lexemes _ hscanned hnonempty hrejected).1.2 (nofun)

/-- A parenthesis in the place of a name: the error points at the token behind it. -/
theorem parse_offset_behind_offence :
    let lexemes : List Lexeme := [⟨.name "a", 0, ['a']⟩, ⟨.mark .dot, 1, ['.']⟩,
      ⟨.mark .leftParen, 2, ['(']⟩, ⟨.name "b", 3, ['b']⟩]
    Token.scan 0 "a.(b".toList = .ok lexemes ∧ lexemes ≠ [] ∧
      parse "a.(b" = .error ⟨3, .expectedName⟩ ∧
      ¬ PointsAtOffence lexemes (byteLength "a.(b".toList) 3 := by
  intro lexemes
  have hscanned : Token.scan 0 "a.(b".toList = .ok lexemes := by with_unfolding_all rfl
  have hnonempty : lexemes ≠ [] := List.cons_ne_nil _ _
  have hrejected : parse "a.(b" = .error ⟨3, .expectedName⟩ := by with_unfolding_all rfl
  have hstuck : ¬ CanGoOn [.name "a", .mark .dot, .mark .leftParen] := by
    rintro ⟨more, haccepted⟩
    obtain ⟨e, hderived⟩ := derives_of_accepted haccepted
    have hword : "a" ∉ keywords := by decide
    have hname : (dottedName "a" (.mark .dot :: .mark .leftParen :: more)).outcome =
        .error ⟨.expectedName, more⟩ := Parser.dottedName_dot_refuses (fun _ => nofun)
    have hread := Parser.comparison_eq_ok_iff.2 hderived
    simp [Parser.comparison_outcome, Parser.chain_outcome, Parser.operand_outcome,
      Parser.unary_cons, unary?, Parser.power_outcome, Parser.postfixed_outcome,
      Parser.primary_name, hword, hname, bind, Except.bind] at hread
  refine ⟨hscanned, hnonempty, hrejected, ?_⟩
  exact not_pointsAtOffence [_, _] _ [_] (offsets_of_scan hscanned).1 (by decide) hstuck

end Expr

end ColumnFlow
