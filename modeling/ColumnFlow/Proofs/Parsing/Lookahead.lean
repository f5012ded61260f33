import ColumnFlow.Proofs.Parsing.Completeness

/-!
# The parser looks one token ahead

What a function of `Parser` does is settled by the tokens it uses and the one after them, and
where it refuses, the tokens it has used can still go on to a phrase of its rule. So the token
after them is the first that nothing can follow. The two facts are proved together, by one lemma
for each way in which the functions are put together.
-/

namespace ColumnFlow

/-! ## Tokens that can go on -/

/-- A token of those with which everything that has been begun can be brought to an end. -/
def Token.Closes (t : Token) : Prop :=
  t = .name "x" ∨ t = .mark .rightParen ∨ t = .mark .rightBracket

section

variable {α β : Type} {rule rule' : Rule} {wrap : α → Phrase} {wrap' : β → Phrase}
  {ts before closing : List Token} {a : α}

/-- The tokens can go on to a phrase of the rule. -/
def Viable (rule : Rule) (wrap : α → Phrase) (ts : List Token) : Prop :=
  ∃ more a, (∀ t ∈ more, t.Closes) ∧ Derives rule (ts ++ more) (wrap a)

theorem Viable.of_derives (hderived : Derives rule ts (wrap a)) : Viable rule wrap ts :=
  ⟨[], a, List.forall_mem_nil _, by rwa [List.append_nil]⟩

/-- Tokens that one closing token turns into a phrase can go on. -/
theorem Viable.of_closing {t : Token} (hcloses : t.Closes)
    (hderived : Derives rule (ts ++ [t]) (wrap a)) : Viable rule wrap ts :=
  ⟨[t], a, List.forall_mem_singleton.2 hcloses, hderived⟩

/-- What is begun behind other tokens is brought to an end. -/
theorem Viable.behind (h : Viable rule wrap ts) (before : List Token)
    (houter : ∀ us a, Derives rule us (wrap a) → ∃ b, Derives rule' (before ++ us) (wrap' b)) :
    Viable rule' wrap' (before ++ ts) := by
  obtain ⟨more, a, hcloses, hderived⟩ := h
  obtain ⟨b, hwhole⟩ := houter _ a hderived
  exact ⟨more, b, hcloses, by rwa [List.append_assoc]⟩

/-- What is begun inside a phrase is brought to an end, and then the phrase around it. -/
theorem Viable.inside (h : Viable rule wrap ts) (before : List Token) {t : Token}
    (hcloses : t.Closes) (houter : ∀ us a, Derives rule us (wrap a) →
      ∃ b, Derives rule' (before ++ (us ++ [t])) (wrap' b)) :
    Viable rule' wrap' (before ++ ts) := by
  obtain ⟨more, a, hclosing, hderived⟩ := h
  obtain ⟨b, hwhole⟩ := houter _ a hderived
  refine ⟨more ++ [t], b, ?_, by simpa using hwhole⟩
  exact List.forall_mem_append.2 ⟨hclosing, List.forall_mem_singleton.2 hcloses⟩

end

theorem viable_primary : Viable .primary Phrase.expr [] :=
  .of_closing (.inl rfl) (.symbol (.word (by decide)))

theorem viable_comparison : Viable .comparison Phrase.expr [] :=
  viable_primary.behind [] fun _ e h =>
    ⟨e, .single (.first (.first (.first (.first (.first (.unsigned (.base (.atom h))))))))⟩

theorem ne_cons_of_head? {t : Token} {us vs : List Token} (hother : ∀ rest, vs ≠ t :: rest)
    (hhead : us.head? = vs.head?) : ∀ rest, us ≠ t :: rest := by
  rintro rest rfl
  obtain ⟨rest', heq⟩ := List.head?_eq_some_iff.1 hhead.symm
  exact hother rest' heq

/-! ## One token ahead -/

/-- What is unread where a rule refuses at the first of the elements. A missing name is noticed
behind the token that stands in its place. -/
def unreadFrom {α : Type} : Reason → List α → List α
  | .expectedName, after => after.tail
  | _, after => after

section

variable {α β : Type} {reason : Reason}

theorem unreadFrom_of_ne (hother : reason ≠ .expectedName) (xs : List α) :
    unreadFrom reason xs = xs := by
  cases reason with
  | expectedName => exact absurd rfl hother
  | _ => rfl

theorem unreadFrom_map (reason : Reason) (f : α → β) (xs : List α) :
    unreadFrom reason (xs.map f) = (unreadFrom reason xs).map f := by
  cases reason with
  | expectedName => exact List.map_tail.symm
  | _ => rfl

/-- What is left unread where a name was expected is the end of what was there. -/
theorem exists_skipped (reason : Reason) (xs : List α) :
    ∃ skipped, skipped ++ unreadFrom reason xs = xs := by
  cases reason with
  | expectedName => exact ⟨xs.take 1, by rw [unreadFrom, ← List.drop_one, List.take_append_drop]⟩
  | _ => exact ⟨[], rfl⟩

end

/-- A reading function, given the tokens, uses those in front and looks at no more than one of the
others. Either it reads something from them and leaves the others, or it refuses, and then those it
has used can go on. -/
inductive Lookahead {α : Type} (F : List Token → Except Refusal (α × List Token))
    (reading : α → List Token → Prop) (viable : List Token → Prop) : List Token → Prop where
  | reads (used : List Token) {after : List Token} {a : α} : reading a used →
      (∀ after', after'.head? = after.head? → F (used ++ after') = .ok (a, after')) →
      Lookahead F reading viable (used ++ after)
  | refuses (used : List Token) {after : List Token} (reason : Reason) : viable used →
      (∀ after', after'.head? = after.head? →
        F (used ++ after') = .error ⟨reason, unreadFrom reason after'⟩) →
      Lookahead F reading viable (used ++ after)

namespace Lookahead

variable {α β : Type} {F : List Token → Except Refusal (α × List Token)}
  {G : List Token → Except Refusal (β × List Token)}
  {P P' : α → List Token → Prop} {V V' W : List Token → Prop} {Q : β → List Token → Prop}
  {ts : List Token} {t : Token} {a : α}

/-- What is known of the tokens used may be weakened on either side. -/
theorem mono (h : Lookahead F P V ts) (hreading : ∀ a used, P a used → P' a used)
    (hviable : ∀ used, V used → V' used) : Lookahead F P' V' ts := by
  cases h with
  | reads used hholds hsame => exact .reads used (hreading _ _ hholds) hsame
  | refuses used reason hholds hsame => exact .refuses used reason (hviable _ hholds) hsame

/-- Another function that does the same in front of the first token. -/
theorem congr (h : Lookahead F P V ts) {F' : List Token → Except Refusal (α × List Token)}
    (heq : ∀ us, us.head? = ts.head? → F' us = F us) : Lookahead F' P V ts := by
  have hfront (used after after' : List Token) (hhead : after'.head? = after.head?) :
      (used ++ after').head? = (used ++ after).head? := by
    cases used with
    | nil => exact hhead
    | cons => rfl
  cases h with
  | reads used hholds hsame =>
    exact .reads used hholds fun after' hhead =>
      (heq _ (hfront used _ after' hhead)).trans (hsame after' hhead)
  | refuses used reason hholds hsame =>
    exact .refuses used reason hholds fun after' hhead =>
      (heq _ (hfront used _ after' hhead)).trans (hsame after' hhead)

/-- Nothing is used. -/
theorem stay (hholds : P a [])
    (hsame : ∀ after, after.head? = ts.head? → F after = .ok (a, after)) : Lookahead F P V ts :=
  .reads [] hholds hsame

/-- A function that refuses at once, whatever follows the next token, looks no further than it. -/
theorem refuse (reason : Reason) (hholds : V [])
    (hsame : ∀ after, after.head? = ts.head? → F after = .error ⟨reason, unreadFrom reason after⟩) :
    Lookahead F P V ts :=
  .refuses [] reason hholds hsame

/-- Nothing is used where the next token is not the one that would be. -/
theorem stay_of_ne {t : Token} (hholds : P a []) (hother : ∀ rest, ts ≠ t :: rest)
    (hsame : ∀ after, (∀ rest, after ≠ t :: rest) → F after = .ok (a, after)) :
    Lookahead F P V ts :=
  stay hholds fun after hhead => hsame after (ne_cons_of_head? hother hhead)

/-- The first token is used. -/
theorem cons {H : List Token → Except Refusal (α × List Token)}
    (heq : ∀ rest, F (t :: rest) = H rest)
    (h : Lookahead H (fun a used => P a (t :: used)) (fun used => V (t :: used)) ts) :
    Lookahead F P V (t :: ts) := by
  cases h with
  | reads used hholds hsame =>
    exact .reads (t :: used) hholds fun after' hhead => (heq _).trans (hsame after' hhead)
  | refuses used reason hholds hsame =>
    exact .refuses (t :: used) reason hholds fun after' hhead => (heq _).trans (hsame after' hhead)

/-- One function after the other. -/
theorem bind {next : β × List Token → Except Refusal (α × List Token)}
    (heq : ∀ ts, F ts = G ts >>= next) (h : Lookahead G Q W ts) (hbegun : ∀ used, W used → V used)
    (h' : ∀ b used after, ts = used ++ after → Q b used →
      Lookahead (fun rest => next (b, rest)) (fun a more => P a (used ++ more))
        (fun more => V (used ++ more)) after) :
    Lookahead F P V ts := by
  -- Either the first function refuses, and with it the whole, or the two readings follow one
  -- another.
  cases h with
  | refuses used reason hholds hsame =>
    refine .refuses used reason (hbegun _ hholds) fun after' hhead => ?_
    rw [heq, hsame after' hhead]
    rfl
  | @reads used rest b hholds hsame =>
    -- What the second function uses and looks at is all that the first one looks at.
    have hfirst (more after after' : List Token) (hhead : after'.head? = after.head?)
        (hsplit : rest = more ++ after) :
        F (used ++ more ++ after') = next (b, more ++ after') := by
      have hbehind : (more ++ after').head? = rest.head? := by
        subst hsplit
        cases more with
        | nil => exact hhead
        | cons => rfl
      rw [heq, List.append_assoc, hsame _ hbehind]
      rfl
    cases h' b used rest rfl hholds with
    | @reads more after a hholds' hsame' =>
      rw [← List.append_assoc]
      exact .reads (used ++ more) hholds' fun after' hhead =>
        (hfirst more after after' hhead rfl).trans (hsame' after' hhead)
    | @refuses more after reason hholds' hsame' =>
      rw [← List.append_assoc]
      exact .refuses (used ++ more) reason hholds' fun after' hhead =>
        (hfirst more after after' hhead rfl).trans (hsame' after' hhead)

/-- The last step leaves what it is given. -/
theorem done (hholds : P a []) (heq : ∀ rest, F rest = .ok (a, rest)) : Lookahead F P V ts :=
  stay hholds fun after _ => heq after

/-- The next token is the mark, or it is the one that is refused. -/
theorem expect {m : Mark} {next : Unit × List Token → Except Refusal (α × List Token)}
    (heq : ∀ ts, F ts = (expectMark m ts).outcome >>= next) (hbegun : V [])
    (h : ∀ after, ts = .mark m :: after → Lookahead (fun rest => next ((), rest))
      (fun a more => P a (.mark m :: more)) (fun more => V (.mark m :: more)) after) :
    Lookahead F P V ts := by
  cases ts with
  | nil =>
    refine .refuse (.expected m none) hbegun fun after hhead => ?_
    cases List.head?_eq_none_iff.1 hhead
    exact heq []
  | cons t r =>
    by_cases hsame : t = .mark m
    · subst hsame
      refine .cons (fun rest => ?_) (h r rfl)
      rw [heq, Parser.expectMark_eq_ok_iff.2 rfl]
      rfl
    · refine .refuse (.expected m (some t)) hbegun fun after hhead => ?_
      obtain ⟨r', rfl⟩ := List.head?_eq_some_iff.1 hhead
      rw [heq, Parser.expectMark_outcome]
      dsimp only
      rw [if_neg hsame]
      rfl

end Lookahead

namespace Parser

/-! ## Names and marks -/

/-- The tokens can go on to a dotted name. -/
def ViableName (ts : List Token) : Prop :=
  ∃ more name, (∀ t ∈ more, t.Closes) ∧ DottedName (ts ++ more) name

/-- A point that no name follows is refused behind the token that stands there. -/
theorem dottedName_dot_refuses {name : String} {t : Token} {r : List Token}
    (hother : ∀ part, t ≠ .name part) :
    (dottedName name (.mark .dot :: t :: r)).outcome = .error ⟨.expectedName, r⟩ := by
  cases t with
  | name part => exact absurd rfl (hother part)
  | _ => rfl

/-- A name with a point behind it can still go on. -/
theorem viableName_dot {before : List Token} {name : String}
    (hnamed : DottedName before name) : ViableName (before ++ [.mark .dot]) := by
  refine ⟨[.name "x"], name ++ "." ++ "x", ?_, by simpa using hnamed.dotted⟩
  exact List.forall_mem_singleton.2 (.inl rfl)

/-- The parts of a name are read one token ahead. -/
theorem dottedName_lookahead {name : String} {before ts : List Token}
    (hnamed : DottedName before name) :
    Lookahead (fun ts => (dottedName name ts).outcome)
      (fun name' used => DottedName (before ++ used) name')
      (fun used => ViableName (before ++ used)) ts := by
  -- Along the recursion of the loop, with the part of the name that was read before it.
  fun_induction dottedName name ts generalizing before with
  | case1 name part r ih =>
    refine .cons (fun _ => rfl) (.cons (dottedName_dot name part) ?_)
    exact (ih hnamed.dotted).mono (by simp) (by simp)
  | case2 name t r hother =>
    refine .cons (fun _ => rfl)
      (.refuse .expectedName (viableName_dot hnamed) fun after hhead => ?_)
    obtain ⟨r', rfl⟩ := List.head?_eq_some_iff.1 hhead
    exact dottedName_dot_refuses hother
  | case3 name =>
    refine .cons (fun _ => rfl)
      (.refuse .expectedName (viableName_dot hnamed) fun after hhead => ?_)
    cases List.head?_eq_none_iff.1 hhead
    rfl
  | case4 name ts hnoName hnoOther hnoEnd =>
    refine .stay (by simpa using hnamed) fun after hhead => dottedName_of_ne_dot fun hdot => ?_
    obtain ⟨r, rfl⟩ := List.head?_eq_some_iff.1 (hhead ▸ hdot)
    cases r with
    | nil => exact hnoEnd rfl
    | cons t r => exact hnoOther t r rfl

/-! ## Rules -/

/-- What a rule reads derives, and what it has used when it refuses can go on to a phrase. -/
def LookaheadFor {α : Type} (rule : Rule) (wrap : α → Phrase)
    (F : List Token → Except Refusal (α × List Token)) (ts : List Token) : Prop :=
  Lookahead F (fun a used => Derives rule used (wrap a)) (Viable rule wrap) ts

/-- The function of a rule looks one token ahead. A part of a slice, which may be left out, refuses
only inside its expression. -/
def Looks : Rule → List Token → Prop
  | .comparison => LookaheadFor .comparison Phrase.expr fun ts => (comparison ts).outcome
  | .chain level => LookaheadFor (.chain level) Phrase.expr fun ts => (chain level ts).outcome
  | .unary => LookaheadFor .unary Phrase.expr fun ts => (unary ts).outcome
  | .power => LookaheadFor .power Phrase.expr fun ts => (power ts).outcome
  | .postfixed => LookaheadFor .postfixed Phrase.expr fun ts => (postfixed ts).outcome
  | .primary => LookaheadFor .primary Phrase.expr fun ts => (primary ts).outcome
  | .subscript => LookaheadFor .subscript Phrase.subscript fun ts => (subscript ts).outcome
  | .slicePart => Lookahead (fun ts => (slicePart ts).outcome)
      (fun part used => Derives .slicePart used (.slicePart part)) (Viable .comparison Phrase.expr)
  | .arguments => LookaheadFor .arguments Phrase.arguments fun ts => (arguments ts).outcome
  | .argumentList => LookaheadFor .argumentList Phrase.arguments fun ts => (argumentList ts).outcome

/-- Every rule looks one token ahead in fewer than `n` tokens. -/
def LooksBelow (n : Nat) : Prop := ∀ us : List Token, us.length < n → ∀ rule, Looks rule us

theorem LooksBelow.mono {n m : Nat} (h : LooksBelow m) (hle : n ≤ m) : LooksBelow n :=
  fun us hlt => h us (Nat.lt_of_lt_of_le hlt hle)

/-- Behind a name, a parenthesis opens the arguments of a call. -/
theorem named_lookahead {name : String} {before ts : List Token} (ih : LooksBelow ts.length)
    (hnamed : DottedName before name) :
    Lookahead (fun ts => match ts with
        | .mark .leftParen :: r => (arguments r).outcome >>= fun (es, rest) =>
          (expectMark .rightParen rest).outcome >>= fun (_, rest) => .ok (.call name es none, rest)
        | ts => .ok (.symbol name none, ts))
      (fun e used => Derives .primary (before ++ used) (.expr e))
      (fun used => Viable .primary Phrase.expr (before ++ used)) ts := by
  by_cases hcall : ∃ r, ts = .mark .leftParen :: r
  · obtain ⟨r, rfl⟩ := hcall
    refine .cons (fun _ => rfl) (.bind (fun _ => rfl) (ih r (by simp) .arguments) ?_ ?_)
    · intro inside hviable
      have hwhole := hviable.inside (before ++ [.mark .leftParen]) (.inr (.inl rfl))
        fun us es h => ⟨Expr.call name es none, by simpa using Derives.call hnamed h⟩
      simpa using hwhole
    · intro es inside after _ hderived
      have hclosed : Derives .primary _ (.expr (.call name es none)) := .call hnamed hderived
      exact .expect (fun _ => rfl) (.of_closing (.inr (.inl rfl)) (by simpa using hclosed))
        fun after _ => .done (by simpa using hclosed) fun _ => rfl
  · refine .stay_of_ne (t := .mark .leftParen) (by simpa using .symbol hnamed)
      (fun r heq => hcall ⟨r, heq⟩) fun after hother => ?_
    split
    · exact absurd rfl (hother _)
    · rfl

/-- The next token decides between literals, parentheses and names. -/
theorem primary_looks {ts : List Token} (ih : LooksBelow ts.length) : Looks .primary ts := by
  cases ts with
  | nil =>
    refine .refuse .unexpectedEnd viable_primary fun after hhead => ?_
    cases List.head?_eq_none_iff.1 hhead
    exact primary_nil
  | cons t r =>
    cases t with
    | number x => exact .cons (primary_number x) (.done .number fun _ => rfl)
    | text s => exact .cons (primary_text s) (.done .text fun _ => rfl)
    | mark m =>
      by_cases hparen : m = .leftParen
      · subst hparen
        refine .cons primary_leftParen (.bind (fun _ => rfl) (ih r (by simp) .comparison) ?_ ?_)
        · intro used hviable
          exact hviable.inside [.mark .leftParen] (.inr (.inl rfl)) fun us e h => ⟨e, .parens h⟩
        · intro e inside after _ hderived
          have hclosed : Derives .primary _ (.expr e) := .parens hderived
          exact .expect (fun _ => rfl) (.of_closing (.inr (.inl rfl)) (by simpa using hclosed))
            fun after _ => .done (by simpa using hclosed) fun _ => rfl
      · refine .refuse (.unexpectedToken (.mark m)) viable_primary fun after hhead => ?_
        obtain ⟨r', rfl⟩ := List.head?_eq_some_iff.1 hhead
        exact primary_mark m r' hparen
    | name word =>
      by_cases hisTrue : word = "True"
      · subst hisTrue
        exact .cons (fun rest => primary_name "True" rest) (.done .true fun _ => rfl)
      by_cases hisFalse : word = "False"
      · subst hisFalse
        exact .cons (fun rest => primary_name "False" rest) (.done .false fun _ => rfl)
      by_cases hkeyword : word ∈ keywords
      · refine .refuse (.unsupportedKeyword word) viable_primary fun after hhead => ?_
        obtain ⟨r', rfl⟩ := List.head?_eq_some_iff.1 hhead
        rw [primary_name, if_neg hisTrue, if_neg hisFalse, if_pos hkeyword]
        rfl
      -- What is left is a name, and whether it is called shows in the token behind it.
      have hfree : word ∉ reservedWords := by simp [reservedWords, hisTrue, hisFalse, hkeyword]
      have heq (rest : List Token) := (primary_name word rest).trans
        ((if_neg hisTrue).trans ((if_neg hisFalse).trans (if_neg hkeyword)))
      refine .cons heq (.bind (fun _ => rfl) (dottedName_lookahead (.word hfree)) ?_ ?_)
      · rintro used ⟨more, name, hcloses, hnamed⟩
        exact ⟨more, _, hcloses, .symbol hnamed⟩
      · rintro name used after rfl hnamed
        exact named_lookahead (ih.mono (by simp; omega)) hnamed

/-- A row of subscripts is read one token ahead, behind what it is attached to. -/
theorem subscripts_lookahead {e : Expr} {before ts : List Token} (ih : LooksBelow ts.length)
    (hderived : Derives .postfixed before (.expr e)) :
    Lookahead (fun ts => (subscripts e ts).outcome)
      (fun e' used => Derives .postfixed (before ++ used) (.expr e'))
      (fun used => Viable .postfixed Phrase.expr (before ++ used)) ts := by
  -- On the number of tokens: a subscript is attached to what was read so far, which is then what
  -- the next one is attached to.
  induction hn : ts.length using Nat.strongRecOn generalizing ts e before with
  | ind n hloop =>
    by_cases hbracket : ∃ r, ts = .mark .leftBracket :: r
    · obtain ⟨r, rfl⟩ := hbracket
      refine .cons (subscripts_bracket e) (.bind (fun _ => rfl) (ih r (by simp) .subscript) ?_ ?_)
      · intro used hviable
        have hwhole := hviable.inside (before ++ [.mark .leftBracket]) (.inr (.inr rfl))
          fun us s h => ⟨e.subscript s, by
            simpa using Derives.subscripted hderived h (subscripted_iff.2 rfl)⟩
        simpa using hwhole
      · rintro s inside after rfl hderived'
        have hclosed : Derives .postfixed _ (.expr (e.subscript s)) :=
          .subscripted hderived hderived' (subscripted_iff.2 rfl)
        refine .expect (fun _ => rfl) (.of_closing (.inr (.inr rfl)) (by simpa using hclosed)) ?_
        rintro after rfl
        have hshorter : after.length < n := by
          rw [← hn]
          simp only [List.length_cons, List.length_append]
          omega
        have hbehind := hloop _ hshorter (ih.mono (by simp; omega)) hclosed rfl
        exact hbehind.mono (by simp) (by simp)
    · refine .stay_of_ne (t := .mark .leftBracket) (by simpa using hderived)
        (fun r heq => hbracket ⟨r, heq⟩) fun after hother => subscripts_other e after hother

/-- An operand with its subscripts is read one token ahead. -/
theorem postfixed_looks {ts : List Token} (ih : LooksBelow ts.length) : Looks .postfixed ts := by
  refine .bind postfixed_outcome (primary_looks ih) ?_ ?_
  · intro used hviable
    exact hviable.behind [] fun us e h => ⟨e, .atom h⟩
  · rintro e used after rfl hderived
    exact subscripts_lookahead (ih.mono (by simp)) (.atom hderived)

/-- A power is read one token ahead, with a sign allowed in its exponent. -/
theorem power_looks {ts : List Token} (ih : LooksBelow ts.length) : Looks .power ts := by
  refine .bind power_outcome (postfixed_looks ih) ?_ ?_
  · intro used hviable
    exact hviable.behind [] fun us e h => ⟨e, .base h⟩
  · rintro a used after rfl hderived
    by_cases hraised : ∃ r, after = .mark .starStar :: r
    · obtain ⟨r, rfl⟩ := hraised
      have hbelow : LooksBelow (r.length + 1) := ih.mono (by simp)
      refine .cons (fun _ => rfl) (.bind (fun _ => rfl) (hbelow r (by simp) .unary) ?_ ?_)
      · intro more hviable
        have hwhole := hviable.behind (used ++ [.mark .starStar]) fun us b h =>
          ⟨Expr.binary .pow a b, by simpa using Derives.raised hderived h⟩
        simpa using hwhole
      · rintro b more after rfl hderived'
        exact .done (by simpa using Derives.raised hderived hderived') fun _ => rfl
    · refine .stay_of_ne (t := .mark .starStar) (by simpa using .base hderived)
        (fun r heq => hraised ⟨r, heq⟩) fun after hother => ?_
      dsimp only
      split
      · exact absurd rfl (hother _)
      · rfl

/-- Signs are read one token ahead. -/
theorem unary_looks {ts : List Token} (ih : LooksBelow ts.length) : Looks .unary ts := by
  -- Without a sign the rule is that of powers, whatever the reason for there being none.
  have hunsigned (heq : ∀ us, us.head? = ts.head? → (unary us).outcome = (power us).outcome) :
      Looks .unary ts := by
    refine ((power_looks ih).congr heq).mono (fun e used hderived => .unsigned hderived) ?_
    intro used hviable
    exact hviable.behind [] fun us e h => ⟨e, .unsigned h⟩
  cases ts with
  | nil =>
    refine hunsigned fun us hhead => ?_
    cases List.head?_eq_none_iff.1 hhead
    exact unary_nil
  | cons t r =>
    cases hsign : unary? t with
    | none =>
      refine hunsigned fun us hhead => ?_
      obtain ⟨r', rfl⟩ := List.head?_eq_some_iff.1 hhead
      rw [unary_cons, hsign]
    | some op =>
      have heq (rest : List Token) : (unary (t :: rest)).outcome =
          (unary rest).outcome >>= fun p => .ok (.unary op p.1, p.2) := by
        rw [unary_cons, hsign]
      refine .cons heq (.bind (fun _ => rfl) (ih r (by simp) .unary) ?_ ?_)
      · intro used hviable
        exact hviable.behind [t] fun us a h => ⟨Expr.unary op a, .signed hsign h⟩
      · rintro a used after rfl hderived
        exact .done (by simpa using Derives.signed hsign hderived) fun _ => rfl

theorem operand_lookahead {level : Level} {ts : List Token} (h : Looks level.operandRule ts) :
    LookaheadFor level.operandRule Phrase.expr (fun ts => (operand level ts).outcome) ts := by
  cases level <;> exact h.congr fun us _ => operand_outcome _ us

/-- The loop of a chain reads on from its left operand, one token ahead. -/
theorem chainTail_lookahead {level : Level} {a : Expr} {before ts : List Token}
    (ih : LooksBelow ts.length) (hderived : Derives (.chain level) before (.expr a)) :
    Lookahead (fun ts => (chainTail level a ts).outcome)
      (fun e used => Derives (.chain level) (before ++ used) (.expr e))
      (fun used => Viable (.chain level) Phrase.expr (before ++ used)) ts := by
  -- On the number of tokens: the chain read so far is the left operand of the next operator.
  induction hn : ts.length using Nat.strongRecOn generalizing ts a before with
  | ind n hloop =>
    cases ts with
    | nil =>
      refine .stay (by simpa using hderived) fun after hhead => ?_
      cases List.head?_eq_none_iff.1 hhead
      exact chainTail_nil level a
    | cons t r =>
      cases hmark : level.operator? t with
      | none =>
        refine .stay (by simpa using hderived) fun after hhead => ?_
        obtain ⟨r', rfl⟩ := List.head?_eq_some_iff.1 hhead
        rw [chainTail_cons, hmark]
      | some op =>
        have heq (rest : List Token) : (chainTail level a (t :: rest)).outcome =
            (operand level rest).outcome >>= fun p =>
              (chainTail level (.binary op a p.1) p.2).outcome := by
          rw [chainTail_cons, hmark]
        have hright := operand_lookahead (ih r (by simp) level.operandRule)
        refine .cons heq (.bind (fun _ => rfl) hright ?_ ?_)
        · intro used hviable
          have hwhole := hviable.behind (before ++ [t]) fun us b h =>
            ⟨Expr.binary op a b, by simpa using Derives.further hderived hmark h⟩
          simpa using hwhole
        · rintro b used after rfl hderived'
          have hshorter : after.length < n := by
            rw [← hn]
            simp only [List.length_cons, List.length_append]
            omega
          have hbehind := hloop _ hshorter (ih.mono (by simp; omega))
            (.further hderived hmark hderived') rfl
          exact hbehind.mono (by simp) (by simp)

theorem chain_looks {level : Level} {ts : List Token} (ih : LooksBelow ts.length)
    (hoperand : Looks level.operandRule ts) : Looks (.chain level) ts := by
  refine .bind (chain_outcome level) (operand_lookahead hoperand) ?_ ?_
  · intro used hviable
    exact hviable.behind [] fun us e h => ⟨e, .first h⟩
  · rintro e used after rfl hderived
    exact chainTail_lookahead (ih.mono (by simp)) (.first hderived)

/-- All levels of chains read one token ahead if what they are made of does. -/
theorem chains_look {ts : List Token} (ih : LooksBelow ts.length) (level : Level) :
    Looks (.chain level) ts := by
  have hproduct : Looks (.chain .product) ts := chain_looks ih (unary_looks ih)
  have hsum : Looks (.chain .sum) ts := chain_looks ih hproduct
  have hand : Looks (.chain .and) ts := chain_looks ih hsum
  have hxor : Looks (.chain .xor) ts := chain_looks ih hand
  cases level with
  | or => exact chain_looks ih hxor
  | xor => exact hxor
  | and => exact hand
  | sum => exact hsum
  | product => exact hproduct

/-- A comparison reads one token ahead, also where it refuses a second comparison behind it. -/
theorem comparison_looks {ts : List Token} (ih : LooksBelow ts.length) : Looks .comparison ts := by
  refine .bind comparison_outcome (chains_look ih .or) ?_ ?_
  · intro used hviable
    exact hviable.behind [] fun us e h => ⟨e, .single h⟩
  · rintro a used after rfl hderived
    cases after with
    | nil =>
      refine .stay (by simpa using .single hderived) fun after hhead => ?_
      cases List.head?_eq_none_iff.1 hhead
      rfl
    | cons t r =>
      cases hmark : comparison? t with
      | none =>
        refine .stay (by simpa using .single hderived) fun after hhead => ?_
        obtain ⟨r', rfl⟩ := List.head?_eq_some_iff.1 hhead
        dsimp only
        rw [hmark]
      | some op =>
        have hbelow : LooksBelow (r.length + 1) := ih.mono (by simp)
        refine .cons (fun rest => by dsimp only; rw [hmark])
          (.bind (fun _ => rfl) (hbelow r (by simp) (.chain .or)) ?_ ?_)
        · intro more hviable
          have hwhole := hviable.behind (used ++ [t]) fun us b h =>
            ⟨Expr.binary op a b, by simpa using Derives.compare hderived hmark h⟩
          simpa using hwhole
        · rintro b more after rfl hderived'
          have hwhole : Derives .comparison _ (.expr (.binary op a b)) :=
            .compare hderived hmark hderived'
          by_cases hchained : after.head?.any fun u => (comparison? u).isSome
          · refine .refuse .chainedComparison (.of_derives (by simpa using hwhole)) ?_
            intro after' hhead
            exact if_pos (hhead ▸ hchained)
          · refine .stay (by simpa using hwhole) fun after' hhead => ?_
            exact if_neg (hhead ▸ hchained)

/-- A bound of a slice is left out exactly where the next token ends it. -/
theorem slicePart_looks {ts : List Token} (ih : LooksBelow ts.length) : Looks .slicePart ts := by
  by_cases hends : endsPart ts
  · refine .stay .omitted fun after hhead => ?_
    have hends' : endsPart after := by
      unfold endsPart at hends ⊢
      rwa [hhead]
    rw [slicePart_outcome, if_pos hends']
  · have hpart : Lookahead
        (fun ts => (comparison ts).outcome >>= fun p => .ok (some p.1, p.2))
        (fun part used => Derives .slicePart used (.slicePart part))
        (Viable .comparison Phrase.expr) ts := by
      refine .bind (fun _ => rfl) (comparison_looks ih) (fun _ hviable => hviable) ?_
      rintro e used after rfl hderived
      exact .done (by simpa using .given hderived) fun _ => rfl
    refine hpart.congr fun us hhead => ?_
    have hgiven : ¬ endsPart us := by
      unfold endsPart at hends ⊢
      rwa [hhead]
    rw [slicePart_outcome, if_neg hgiven]

/-- A list of arguments reads on where the next token is a comma. -/
theorem argumentList_looks {ts : List Token} (ih : LooksBelow ts.length) :
    Looks .argumentList ts := by
  refine .bind argumentList_outcome (comparison_looks ih) ?_ ?_
  · intro used hviable
    exact hviable.behind [] fun us e h => ⟨[e], .lastArgument h⟩
  · rintro a used after rfl hderived
    by_cases hcomma : ∃ r, after = .mark .comma :: r
    · obtain ⟨r, rfl⟩ := hcomma
      have hbelow : LooksBelow (r.length + 1) := ih.mono (by simp)
      refine .cons (fun _ => rfl) (.bind (fun _ => rfl) (hbelow r (by simp) .argumentList) ?_ ?_)
      · intro more hviable
        have hwhole := hviable.behind (used ++ [.mark .comma]) fun us es h =>
          ⟨a :: es, by simpa using Derives.moreArguments hderived h⟩
        simpa using hwhole
      · rintro es more after rfl hderived'
        exact .done (by simpa using Derives.moreArguments hderived hderived') fun _ => rfl
    · refine .stay_of_ne (t := .mark .comma) (by simpa using .lastArgument hderived)
        (fun r heq => hcomma ⟨r, heq⟩) fun after hother => ?_
      dsimp only
      split
      · exact absurd rfl (hother _)
      · rfl

theorem arguments_looks {ts : List Token} (ih : LooksBelow ts.length) : Looks .arguments ts := by
  by_cases hclosed : ts.head? = some (.mark .rightParen)
  · refine .stay .noArguments fun after hhead => ?_
    rw [arguments_outcome, if_pos (hhead.trans hclosed)]
  · have hlist : LookaheadFor .arguments Phrase.arguments
        (fun ts => (argumentList ts).outcome) ts := by
      refine (argumentList_looks ih).mono (fun es used hderived => .someArguments hderived) ?_
      intro used hviable
      exact hviable.behind [] fun us es h => ⟨es, .someArguments h⟩
    refine hlist.congr fun us hhead => ?_
    rw [arguments_outcome, if_neg (hhead ▸ hclosed)]

/-- The colons of a subscript are looked for one token ahead. -/
theorem subscript_looks {ts : List Token} (ih : LooksBelow ts.length) : Looks .subscript ts := by
  refine .bind subscript_outcome (slicePart_looks ih) ?_ ?_
  · intro used hviable
    exact hviable.behind [] fun us e h => ⟨Subscript.index e, .index h⟩
  · rintro a lower after rfl hderived
    by_cases hcolon : ∃ r, after = .mark .colon :: r
    · obtain ⟨r, rfl⟩ := hcolon
      have hbelow : LooksBelow (r.length + 1) := ih.mono (by simp)
      refine .cons (fun _ => rfl) (.bind (fun _ => rfl) (hbelow r (by simp) .slicePart) ?_ ?_)
      · intro more hviable
        have hwhole := hviable.behind (lower ++ [.mark .colon]) fun us e h =>
          ⟨Subscript.slice a (some e) none, by simpa using Derives.bounds hderived (.given h)⟩
        simpa using hwhole
      · rintro b upper after rfl hderived'
        by_cases hsecond : ∃ r', after = .mark .colon :: r'
        · obtain ⟨r', rfl⟩ := hsecond
          have hbelow : LooksBelow (r'.length + 1) := hbelow.mono (by simp; omega)
          refine .cons (fun _ => rfl) (.bind (fun _ => rfl) (hbelow r' (by simp) .slicePart) ?_ ?_)
          · intro more hviable
            have hwhole := hviable.behind (lower ++ .mark .colon :: upper ++ [.mark .colon])
              fun us e h => ⟨Subscript.slice a b (some e), by
                simpa using Derives.stepped hderived hderived' (.given h)⟩
            simpa using hwhole
          · rintro c step after rfl hderived''
            exact .done (by simpa using Derives.stepped hderived hderived' hderived'') fun _ => rfl
        · refine .stay_of_ne (t := .mark .colon) (by simpa using .bounds hderived hderived')
            (fun r' heq => hsecond ⟨r', heq⟩) fun after hother => ?_
          dsimp only
          split
          · exact absurd rfl (hother _)
          · rfl
    · cases hderived with
      | given hderived =>
        refine .stay_of_ne (t := .mark .colon) (by simpa using .index hderived)
          (fun r heq => hcolon ⟨r, heq⟩) fun after hother => ?_
        dsimp only
        split
        · exact absurd rfl (hother _)
        · rfl
      | omitted =>
        have hbegun : Viable .subscript Phrase.subscript [] :=
          viable_comparison.behind [] fun us e h => ⟨Subscript.index e, .index h⟩
        refine .refuse .emptySubscript hbegun fun us hhead => ?_
        dsimp only
        split
        · exact absurd rfl (ne_cons_of_head? (fun r heq => hcolon ⟨r, heq⟩) hhead _)
        · rfl

/-- Every function of the parser looks one token ahead. -/
theorem looks (ts : List Token) (rule : Rule) : Looks rule ts := by
  induction hn : ts.length using Nat.strongRecOn generalizing ts rule with
  | ind n hbelow =>
    have ih : LooksBelow ts.length := fun us hlt rule => hbelow us.length (hn ▸ hlt) us rule rfl
    cases rule with
    | comparison => exact comparison_looks ih
    | chain level => exact chains_look ih level
    | unary => exact unary_looks ih
    | power => exact power_looks ih
    | postfixed => exact postfixed_looks ih
    | primary => exact primary_looks ih
    | subscript => exact subscript_looks ih
    | slicePart => exact slicePart_looks ih
    | arguments => exact arguments_looks ih
    | argumentList => exact argumentList_looks ih

end Parser

namespace Expr

/-! ## The first offending token -/

/-- What the whole parser answers is the answer for a comparison, with an error for tokens left
over. -/
theorem ofTokens_eq {ts : List Token} (hnonempty : ts ≠ []) :
    ofTokens ts = (Parser.comparison ts).outcome >>= fun (e, rest) =>
      match rest with
      | [] => .ok e
      | .mark .assign :: _ => .error ⟨.assignment, rest⟩
      | .mark .semicolon :: _ => .error ⟨.severalExpressions, rest⟩
      | t :: _ => .error ⟨.unexpectedToken t, rest⟩ := by
  unfold ofTokens
  rw [if_neg (by simpa using hnonempty)]
  cases Parser.comparison ts with
  | error refusal => rfl
  | ok r => rfl

/-- Tokens that are no expression begin with some that can go on to one. The token after them, or
the end, is the place of the error, and whatever goes on with it is no expression. -/
theorem ofTokens_eq_error {ts : List Token} {refusal : Refusal} (hnonempty : ts ≠ [])
    (hrefused : ofTokens ts = .error refusal) :
    ∃ used after, ts = used ++ after ∧ Viable .comparison Phrase.expr used ∧
      refusal.unread = unreadFrom refusal.reason after ∧
      ∀ after', after'.head? = after.head? →
        ∀ e, ¬ Derives .comparison (used ++ after') (.expr e) := by
  rw [ofTokens_eq hnonempty] at hrefused
  have hahead : Lookahead (fun ts => (Parser.comparison ts).outcome) _ _ ts :=
    Parser.looks ts .comparison
  cases hahead with
  | @refuses used after reason hviable hsame =>
    rw [hsame after rfl] at hrefused
    cases hrefused
    refine ⟨used, after, rfl, hviable, rfl, fun after' hhead e hderived => ?_⟩
    cases (hsame after' hhead).symm.trans (Parser.comparison_eq_ok_iff.2 hderived)
  | @reads used after a hderived hsame =>
    rw [hsame after rfl] at hrefused
    refine ⟨used, after, rfl, .of_derives hderived, ?_, fun after' hhead e hderived' => ?_⟩
    · rw [ok_bind] at hrefused
      dsimp only at hrefused
      split at hrefused <;> cases hrefused <;> rfl
    · cases (hsame after' hhead).symm.trans (Parser.comparison_eq_ok_iff.2 hderived')
      cases List.head?_eq_none_iff.1 hhead.symm
      cases hrefused

end Expr

end ColumnFlow
