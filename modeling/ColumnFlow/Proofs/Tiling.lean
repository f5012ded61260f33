import ColumnFlow.Proofs.Scanning

/-!
# Tokens tile a text

Scanning cuts a text into gaps of blanks and the sources of its tokens. Where a token ends depends
only on the character behind it: a token is read again from its source alone, and a gap may be
widened. In bytes, each source starts at the offset of its token, and both of its ends lie between
characters.
-/

namespace ColumnFlow

/-! ## What a token depends on -/

/-- Behind a token the new text can take the place of the old one: it is empty, or it starts with a
blank or with the same character. -/
def StopsAlike (old new : List Char) : Prop :=
  ∀ d, new.head? = some d → isBlank d ∨ old.head? = some d

theorem stopsAlike_nil (old : List Char) : StopsAlike old [] := by
  rintro _ ⟨⟩

/-- A blank ends a token whatever the token ended at before. -/
theorem stopsAlike_blank {d : Char} (hblank : isBlank d) (old new : List Char) :
    StopsAlike old (d :: new) := by
  rintro _ ⟨⟩
  exact .inl hblank

/-- A kind of characters that has no blanks stops in front of the new text if it stops in front of
the old one. -/
theorem StopsAlike.stop {old new : List Char} {p : Char → Bool} (halike : StopsAlike old new)
    (hvisible : ∀ d, isBlank d → p d = false) (hstop : ∀ d, old.head? = some d → p d = false) :
    ∀ d, new.head? = some d → p d = false := fun d hfirst => (halike d hfirst).elim (hvisible d)
      (hstop d)

/-- The blanks, one by one. -/
theorem isBlank_cases {d : Char} (hblank : isBlank d) :
    d = ' ' ∨ d = '\t' ∨ d = '\n' ∨ d = '\x0c' ∨ d = '\r' := by
  simpa [isBlank, or_assoc] using hblank

section

variable {c : Char} {cs rest : List Char} {t : Token} {m : Mark} {n : Nat}

theorem doubleMark?_blank {d : Char} (hblank : isBlank d) : doubleMark? c d = none := by
  rcases isBlank_cases hblank with rfl | rfl | rfl | rfl | rfl <;> unfold doubleMark? <;> split <;>
    first | rfl | simp_all

theorem isNumberPart_blank (previous : Char) {d : Char} (hblank : isBlank d) :
    isNumberPart previous d = false := by
  rcases isBlank_cases hblank with rfl | rfl | rfl | rfl | rfl <;>
    simp [isNumberPart, isExponentMark]

theorem isNamePart_blank {d : Char} (hblank : isBlank d) : isNamePart d = false := by
  rcases isBlank_cases hblank with rfl | rfl | rfl | rfl | rfl <;> rfl

/-- Where a point starts no fraction, it starts none in front of anything else that ends a token
alike. -/
theorem startsFraction_of_stopsAlike (hwhole : startsFraction cs = false)
    (halike : StopsAlike cs rest) : startsFraction rest = false := by
  have hdigits (ds : List Char) : startsFraction ds = false ↔
      ∀ d, ds.head? = some d → d.isDigit = false := by
    cases ds <;> simp [startsFraction]
  rw [hdigits] at hwhole ⊢
  refine halike.stop (fun d hblank => ?_) hwhole
  rcases isBlank_cases hblank with rfl | rfl | rfl | rfl | rfl <;> rfl

/-- A mark of two characters holds the second one; any other needs only that it stays alone. -/
theorem leadingMark?_append (hfound : leadingMark? c cs = some (m, n))
    (halike : StopsAlike (cs.drop n) rest) :
    n ≤ cs.length ∧ leadingMark? c (cs.take n ++ rest) = some (m, n) := by
  unfold leadingMark? at hfound
  split at hfound
  · next hdouble =>
    cases hfound
    obtain ⟨d, hhead, hpair⟩ := Option.bind_eq_some_iff.1 hdouble
    obtain ⟨ds, rfl⟩ := List.head?_eq_some_iff.1 hhead
    refine ⟨by simp, ?_⟩
    simp [leadingMark?, hpair]
  · next halone =>
    -- A mark of one character may not become one of two: what follows it ends the mark alike.
    have halone' : n = 0 → rest.head?.bind (doubleMark? c) = none := by
      rintro rfl
      refine Option.bind_eq_none_iff.2 fun d hfirst => ?_
      rcases halike d hfirst with hblank | hsame
      · exact doubleMark?_blank hblank
      · exact Option.bind_eq_none_iff.1 halone d hsame
    split at hfound
    · next hpoint =>
      split at hfound
      · cases hfound
      · next hwhole =>
        cases hfound
        refine ⟨Nat.zero_le _, ?_⟩
        have hwhole' := startsFraction_of_stopsAlike (Bool.not_eq_true _ ▸ hwhole) halike
        rw [List.take_zero, List.nil_append, leadingMark?, halone' rfl]
        dsimp only
        rw [if_pos hpoint, hwhole']
        rfl
    · next hpoint =>
      obtain ⟨m', hsingle, heq⟩ := Option.map_eq_some_iff.1 hfound
      cases heq
      refine ⟨Nat.zero_le _, ?_⟩
      rw [List.take_zero, List.nil_append, leadingMark?, halone' rfl]
      dsimp only
      rw [if_neg hpoint, hsingle]
      rfl

/-- A number is no longer than the text. -/
theorem numberLength_le (previous : Char) (cs : List Char) :
    numberLength previous cs ≤ cs.length := by
  induction cs generalizing previous with
  | nil => exact Nat.le_refl _
  | cons d ds ih =>
    unfold numberLength
    split
    · exact Nat.succ_le_succ (ih d)
    · exact Nat.zero_le _

/-- A number goes no further exactly if the next character is not part of it. -/
theorem numberLength_eq_zero_iff {previous : Char} {cs : List Char} :
    numberLength previous cs = 0 ↔ ∀ d, cs.head? = some d → isNumberPart previous d = false := by
  cases cs <;> simp [numberLength]

/-- The length of a number depends only on how the text goes on behind it. -/
theorem numberLength_append_stop {previous : Char} {cs rest : List Char}
    (halike : StopsAlike (cs.drop (numberLength previous cs)) rest) :
    numberLength previous (cs.take (numberLength previous cs) ++ rest) =
      numberLength previous cs := by
  induction cs generalizing previous with
  | nil =>
    refine numberLength_eq_zero_iff.2 (halike.stop (fun d => isNumberPart_blank previous) ?_)
    rintro _ ⟨⟩
  | cons d ds ih =>
    by_cases hpart : isNumberPart previous d
    · have hlength : numberLength previous (d :: ds) = numberLength d ds + 1 := if_pos hpart
      rw [hlength] at halike ⊢
      rw [List.take_succ_cons, List.cons_append, numberLength, if_pos hpart, ih halike]
    · have hlength : numberLength previous (d :: ds) = 0 := if_neg hpart
      rw [hlength] at halike ⊢
      exact numberLength_eq_zero_iff.2 (halike.stop (fun d => isNumberPart_blank previous)
        (numberLength_eq_zero_iff.1 hlength))

theorem leadingMark?_point (cs : List Char) :
    leadingMark? '.' cs = if startsFraction cs then none else some (.dot, 0) := by
  have hdouble : cs.head?.bind (doubleMark? '.') = none := by
    cases cs <;> rfl
  rw [leadingMark?, hdouble]
  rfl

/-- A number that starts with a point has a digit behind it. -/
theorem leadingMark?_number (hunmarked : leadingMark? c cs = none)
    (hnumber : c.isDigit || c = '.') (rest : List Char) :
    leadingMark? c (cs.take (numberLength c cs) ++ rest) = none := by
  by_cases hpoint : c = '.'
  · subst hpoint
    rw [leadingMark?_point] at hunmarked
    split at hunmarked
    · next hfraction =>
      cases cs with
      | nil => cases hfraction
      | cons d ds =>
        have hdigit : d.isDigit := hfraction
        have hgoesOn : isNumberPart '.' d := by simp [isNumberPart, hdigit]
        rw [numberLength, if_pos hgoesOn, List.take_succ_cons, List.cons_append,
          leadingMark?_point]
        exact if_pos hdigit
    · cases hunmarked
  · have hdigit : c.isDigit := by simpa [hpoint] using hnumber
    exact leadingMark?_eq_none (isNamePart_of_isDigit hdigit) _

theorem leadingMark?_quote (hquote : c = '\'' || c = '"') (cs : List Char) :
    leadingMark? c cs = none := by
  rcases Bool.or_eq_true_iff.1 hquote with hsingle | hdouble
  · rw [of_decide_eq_true hsingle]
    cases cs <;> rfl
  · rw [of_decide_eq_true hdouble]
    cases cs <;> rfl

/-- A text that is not left open ends with its quote. -/
theorem take_closing (hclosed : (cs.takeWhile (· ≠ c)).length ≠ cs.length) :
    (cs.takeWhile (· ≠ c)).length + 1 ≤ cs.length ∧
      cs.take ((cs.takeWhile (· ≠ c)).length + 1) = cs.takeWhile (· ≠ c) ++ [c] := by
  induction cs with
  | nil => exact absurd rfl hclosed
  | cons d ds ih =>
    by_cases hsame : d = c
    · subst hsame
      simp
    · have hmore : (d :: ds).takeWhile (· ≠ c) = d :: ds.takeWhile (· ≠ c) :=
        List.takeWhile_cons_of_pos (decide_eq_true hsame)
      rw [hmore] at hclosed ⊢
      obtain ⟨hinside, htaken⟩ := ih fun heq => hclosed (congrArg (· + 1) heq)
      exact ⟨Nat.succ_le_succ hinside, congrArg (d :: ·) htaken⟩

/-- Behind the longest prefix with a property comes a character without it. -/
theorem stop_of_takeWhile (p : Char → Bool) (cs : List Char) :
    ∀ d, (cs.drop (cs.takeWhile p).length).head? = some d → p d = false := by
  have hsplit : cs.drop (cs.takeWhile p).length = cs.dropWhile p := by
    conv_lhs => arg 2; rw [← List.takeWhile_append_dropWhile (p := p) (l := cs)]
    exact List.drop_left
  intro d hfirst
  have hstopped := List.head?_dropWhile_not p cs
  rwa [← hsplit, hfirst] at hstopped

/-- A token is read from its own characters as long as what stands behind them stops it. -/
theorem read_append (hread : Token.read c cs = .ok (t, n)) (halike : StopsAlike (cs.drop n) rest) :
    n ≤ cs.length ∧ Token.read c (cs.take n ++ rest) = .ok (t, n) := by
  unfold Token.read at hread
  split at hread
  · next hleads =>
    cases hread
    obtain ⟨hinside, hsame⟩ := leadingMark?_append hleads halike
    refine ⟨hinside, ?_⟩
    rw [Token.read, hsame]
  · next hunmarked =>
    split at hread
    · next hnumber =>
      dsimp only at hread
      split at hread
      · next hvalue =>
        cases hread
        refine ⟨numberLength_le c cs, ?_⟩
        rw [Token.read, leadingMark?_number hunmarked hnumber]
        dsimp only
        rw [if_pos hnumber, numberLength_append_stop halike,
          List.take_left' (List.length_take_of_le (numberLength_le c cs)), hvalue]
      · cases hread
    · split at hread
      · next hnoNumber hquote =>
        dsimp only at hread
        split at hread
        · cases hread
        · next hclosed =>
          cases hread
          obtain ⟨hinside, htaken⟩ := take_closing hclosed
          -- Quoted text ends at its own quote, so nothing behind it is looked at.
          have hwhole : (cs.takeWhile (· ≠ c) ++ c :: rest).takeWhile (· ≠ c) =
              cs.takeWhile (· ≠ c) :=
            takeWhile_append (List.all_eq_true.1 List.all_takeWhile) (by rintro _ ⟨⟩; simp)
          refine ⟨hinside, ?_⟩
          rw [htaken, List.append_assoc, List.singleton_append, Token.read,
            leadingMark?_quote hquote]
          dsimp only
          rw [if_neg hnoNumber, if_pos hquote, hwhole, if_neg (by simp)]
      · split at hread
        · next hnoNumber hnoQuote hstart =>
          cases hread
          rw [take_length_takeWhile]
          -- A name is the longest of its kind, so it depends on the character behind it.
          have hwhole : (cs.takeWhile isNamePart ++ rest).takeWhile isNamePart =
              cs.takeWhile isNamePart :=
            takeWhile_append (List.all_eq_true.1 List.all_takeWhile)
              (halike.stop (fun d => isNamePart_blank) (stop_of_takeWhile isNamePart cs))
          refine ⟨(List.takeWhile_prefix _).length_le, ?_⟩
          rw [Token.read, leadingMark?_eq_none (isNamePart_of_isNameStart hstart)]
          dsimp only
          rw [if_neg hnoNumber, if_neg hnoQuote, if_pos hstart, hwhole, List.take_left]
        · cases hread

/-- A text is read from its characters, between two quotes of one kind. -/
theorem chars_of_read {s : String} (hread : Token.read c cs = .ok (.text s, n)) :
    (c = '\'' ∨ c = '"') ∧ cs.take n = s.toList ++ [c] := by
  unfold Token.read at hread
  split at hread
  · cases hread
  · split at hread
    · dsimp only at hread
      split at hread <;> cases hread
    · split at hread
      · next hquote =>
        dsimp only at hread
        split at hread
        · cases hread
        · next hclosed =>
          cases hread
          refine ⟨by simpa using hquote, ?_⟩
          rw [(take_closing hclosed).2, String.toList_ofList]
      · split at hread <;> cases hread

end

/-! ## Tilings -/

/-- The offset behind the last byte of a token. -/
def Lexeme.stop (l : Lexeme) : Nat := l.offset + byteLength l.source

/-- The token is read from its source where the rest stands behind it. -/
def Lexeme.ReadsBefore (l : Lexeme) (rest : List Char) : Prop :=
  ∃ c cs, isBlank c = false ∧ l.source = c :: cs ∧
    Token.read c (cs ++ rest) = .ok (l.token, cs.length)

/-- A gap between tokens: nothing but blanks. -/
def IsGap (gap : List Char) : Prop := ∀ d ∈ gap, isBlank d

/-- The text that starts at the offset consists of the sources of the lexemes with gaps between
them, in front of the first one and behind the last one. -/
inductive Tiled : Nat → List Char → List Lexeme → Prop where
  | last {offset : Nat} {gap : List Char} : IsGap gap → Tiled offset gap []
  | next {offset : Nat} {gap rest : List Char} {l : Lexeme} {ls : List Lexeme} :
      IsGap gap → l.offset = offset + byteLength gap → l.ReadsBefore rest → Tiled l.stop rest ls →
      Tiled offset (gap ++ (l.source ++ rest)) (l :: ls)

theorem byteLength_append (cs ds : List Char) :
    byteLength (cs ++ ds) = byteLength cs + byteLength ds := by
  induction cs with
  | nil => rw [List.nil_append, byteLength, Nat.zero_add]
  | cons c cs ih => rw [List.cons_append, byteLength, byteLength, ih, Nat.add_assoc]

theorem utf8Size_blank {d : Char} (hblank : isBlank d) : d.utf8Size = 1 := by
  rcases isBlank_cases hblank with rfl | rfl | rfl | rfl | rfl <;> rfl

section

variable {offset : Nat} {cs : List Char} {lexemes : List Lexeme}

/-- A blank ahead widens the first gap. -/
theorem Tiled.blank {c : Char} (hblank : isBlank c) (h : Tiled (offset + 1) cs lexemes) :
    Tiled offset (c :: cs) lexemes := by
  cases h with
  | last hgap => exact .last (List.forall_mem_cons.2 ⟨hblank, hgap⟩)
  | @next _ gap rest l ls hisGap hstart hreads hbehind =>
    have hisGap' : IsGap (c :: gap) := List.forall_mem_cons.2 ⟨hblank, hisGap⟩
    refine .next hisGap' ?_ hreads hbehind
    rw [hstart, byteLength, utf8Size_blank hblank, Nat.add_assoc]

/-- A gap is passed over, and the offsets go on behind it. -/
theorem scan_gap {gap : List Char} (hisGap : IsGap gap) (rest : List Char) :
    Token.scan offset (gap ++ rest) = Token.scan (offset + byteLength gap) rest := by
  induction gap generalizing offset with
  | nil => rfl
  | cons c gap ih =>
    obtain ⟨hblank, hisGap⟩ := List.forall_mem_cons.1 hisGap
    rw [List.cons_append, Token.scan, if_pos hblank, ih hisGap, byteLength, utf8Size_blank hblank,
      Nat.add_assoc]

/-- Scanning succeeds exactly on tiled texts, with the lexemes of the tiling. -/
theorem scan_eq_ok_iff : Token.scan offset cs = .ok lexemes ↔ Tiled offset cs lexemes := by
  constructor
  · intro hscanned
    -- From scanning to tiles along the recursion of the scanner, and back by induction on the
    -- tiles.
    fun_induction Token.scan offset cs generalizing lexemes with
    | case1 offset =>
      cases hscanned
      exact .last (List.forall_mem_nil _)
    | case2 offset c cs hblank ih => exact (ih hscanned).blank hblank
    | case3 offset c cs hvisible reason hread => cases hscanned
    | case4 offset c cs hvisible t n hread source e hfailed => cases hscanned
    | case5 offset c cs hvisible t n hread source rest hok =>
      rename_i ih
      cases hscanned
      -- What was read is as long as its source, so that the scanner goes on right behind it.
      have hinside := (read_append hread (stopsAlike_nil _)).1
      have hreads : Lexeme.ReadsBefore ⟨t, offset, source⟩ (cs.drop n) := by
        refine ⟨c, cs.take n, by simpa using hvisible, rfl, ?_⟩
        rw [List.take_append_drop, List.length_take_of_le hinside]
        exact hread
      have hisGap : IsGap [] := List.forall_mem_nil _
      have htiled := Tiled.next hisGap (Nat.add_zero offset).symm hreads (ih hok)
      rwa [List.nil_append, List.cons_append, List.take_append_drop] at htiled
  · intro htiled
    induction htiled with
    | @last offset gap hisGap =>
      rw [← List.append_nil gap, scan_gap hisGap, Token.scan]
    | @next offset gap rest l ls hisGap hstart hreads _ ih =>
      obtain ⟨c, cs, hvisible, hsource, hread⟩ := hreads
      have hbehind : Token.scan (l.offset + byteLength (c :: cs)) rest = .ok ls := by
        rw [← hsource]
        exact ih
      rw [scan_gap hisGap, ← hstart, hsource, List.cons_append, Token.scan,
        if_neg (by simp [hvisible]), hread]
      dsimp only
      rw [List.take_left, List.drop_left, hbehind, ← hsource]

/-- A token read before one text is read before any other that ends it alike. -/
theorem Lexeme.ReadsBefore.of_stopsAlike {l : Lexeme} {old new : List Char}
    (hreads : l.ReadsBefore old) (halike : StopsAlike old new) : l.ReadsBefore new := by
  obtain ⟨c, cs, hvisible, hsource, hread⟩ := hreads
  refine ⟨c, cs, hvisible, hsource, ?_⟩
  have hagain : Token.read c ((cs ++ old).take cs.length ++ new) = .ok (l.token, cs.length) :=
    (read_append hread (by rwa [List.drop_left])).2
  rwa [List.take_left] at hagain

/-- No token is read from nothing. -/
theorem Lexeme.ReadsBefore.source_ne_nil {l : Lexeme} {rest : List Char}
    (hreads : l.ReadsBefore rest) : l.source ≠ [] := by
  obtain ⟨c, cs, -, hsource, -⟩ := hreads
  rw [hsource]
  exact List.cons_ne_nil c cs

theorem Lexeme.ReadsBefore.offset_lt_stop {l : Lexeme} {rest : List Char}
    (hreads : l.ReadsBefore rest) : l.offset < l.stop := by
  obtain ⟨c, cs, -, hsource, -⟩ := hreads
  rw [Lexeme.stop, hsource]
  exact Nat.lt_add_of_pos_right (Nat.add_pos_left (Char.utf8Size_pos c) _)

/-! ### Tokens of a tiled text -/

/-- The tokens of a text are among those that scanning gives. -/
theorem scannable_of_scan (hscanned : Token.scan offset cs = .ok lexemes) :
    ∀ t ∈ lexemes.map Lexeme.token, t.Scannable := by
  have htiled := scan_eq_ok_iff.1 hscanned
  clear hscanned
  induction htiled with
  | last _ => exact List.forall_mem_nil _
  | next _ _ hreads _ ih =>
    obtain ⟨c, cs, -, -, hread⟩ := hreads
    exact List.forall_mem_cons.2 ⟨scannable_of_read hread, ih⟩

theorem IsGap.not_mem {gap : List Char} {q : Char} (hisGap : IsGap gap) (hquoting : IsQuoting q) :
    q ∉ gap := by
  intro hmem
  have hblank := hisGap q hmem
  rcases hquoting with rfl | rfl <;> exact absurd hblank (by decide)

/-- Only the source of a text has a quote or a backslash in it. -/
theorem Lexeme.ReadsBefore.not_mem_source {l : Lexeme} {rest : List Char} {q : Char}
    (hreads : l.ReadsBefore rest) (hquoting : IsQuoting q) (hnoText : ∀ s, l.token ≠ .text s) :
    q ∉ l.source := by
  obtain ⟨c, cs, -, hsource, hread⟩ := hreads
  have hapart := not_mem_of_read hquoting hread hnoText
  rwa [List.take_left, ← hsource] at hapart

/-- A text with a quote in it yields a text token. -/
theorem exists_text_of_scan (hscanned : Token.scan offset cs = .ok lexemes) (hquoted : '"' ∈ cs) :
    ∃ l ∈ lexemes, ∃ s, l.token = .text s := by
  have htiled := scan_eq_ok_iff.1 hscanned
  clear hscanned
  induction htiled with
  | last hisGap => exact absurd hquoted (hisGap.not_mem (.inl rfl))
  | @next _ _ _ l _ hisGap _ hreads _ ih =>
    by_cases htext : ∃ s, l.token = .text s
    · exact ⟨l, List.mem_cons_self, htext⟩
    · have houtside := hreads.not_mem_source (.inl rfl) (not_exists.1 htext)
      have hinside := (List.mem_append.1 hquoted).resolve_left (hisGap.not_mem (.inl rfl))
      obtain ⟨l', hmem, htext⟩ := ih ((List.mem_append.1 hinside).resolve_left houtside)
      exact ⟨l', List.mem_cons_of_mem _ hmem, htext⟩

/-- A gap ahead changes no token. -/
theorem scans_append_gap {gap rest : List Char} {ts : List Token} (hisGap : IsGap gap)
    (h : Scans rest ts) : Scans (gap ++ rest) ts := by
  induction gap with
  | nil => exact h
  | cons c gap ih =>
    obtain ⟨hblank, hisGap⟩ := List.forall_mem_cons.1 hisGap
    exact scans_blank hblank (ih hisGap)

/-- A token whose source is put ahead of a text is read first, if it ends there. -/
theorem Lexeme.ReadsBefore.scans {l : Lexeme} {rest : List Char} {ts : List Token}
    (hreads : l.ReadsBefore rest) (h : Scans rest ts) :
    Scans (l.source ++ rest) (l.token :: ts) := by
  obtain ⟨c, cs, hvisible, hsource, hread⟩ := hreads
  rw [hsource, List.cons_append]
  refine scans_token hvisible hread ?_
  rwa [List.drop_left]

/-- A tiled text is scanned into the tokens of its tiles. -/
theorem Tiled.scans (htiled : Tiled offset cs lexemes) : Scans cs (lexemes.map Lexeme.token) := by
  induction htiled with
  | @last _ gap hisGap =>
    rw [← List.append_nil gap]
    exact scans_append_gap hisGap scans_nil
  | next hisGap _ hreads _ ih => exact scans_append_gap hisGap (hreads.scans ih)

/-! ### Places of the lexemes -/

/-- Each token has its place in the text: what is before it has the length of its offset. -/
theorem Tiled.exists_place (htiled : Tiled offset cs lexemes) : ∀ l ∈ lexemes,
    ∃ front back, cs = front ++ (l.source ++ back) ∧ l.offset = offset + byteLength front ∧
      l.ReadsBefore back := by
  induction htiled with
  | last _ => exact List.forall_mem_nil _
  | @next offset gap rest l ls hisGap hstart hreads _ ih =>
    refine List.forall_mem_cons.2 ⟨⟨gap, rest, rfl, hstart, hreads⟩, fun l' hmem => ?_⟩
    obtain ⟨front, back, hsplit, hstart', hreads'⟩ := ih l' hmem
    refine ⟨gap ++ (l.source ++ front), back, ?_, ?_, hreads'⟩
    · rw [hsplit, List.append_assoc, List.append_assoc]
    · rw [hstart', Lexeme.stop, hstart, byteLength_append, byteLength_append, Nat.add_assoc,
        Nat.add_assoc]

/-- Each lexeme ends where the next one starts, or before. -/
theorem Tiled.pairwise (htiled : Tiled offset cs lexemes) :
    lexemes.Pairwise fun l l' => l.stop ≤ l'.offset := by
  induction htiled with
  | last _ => exact .nil
  | next _ _ _ hbehind ih =>
    refine List.pairwise_cons.2 ⟨fun l' hmem => ?_, ih⟩
    obtain ⟨front, -, -, hstart, -⟩ := hbehind.exists_place l' hmem
    rw [hstart]
    exact Nat.le_add_right _ _

/-- A lexeme is scanned again on its own. -/
theorem Lexeme.ReadsBefore.scan_source {l : Lexeme} {rest : List Char}
    (hreads : l.ReadsBefore rest) : Token.scan 0 l.source = .ok [{ l with offset := 0 }] := by
  have halone : Lexeme.ReadsBefore { l with offset := 0 } [] :=
    hreads.of_stopsAlike (stopsAlike_nil rest)
  have hnoGap : IsGap [] := List.forall_mem_nil _
  have htiled : Tiled 0 ([] ++ (l.source ++ [])) [{ l with offset := 0 }] :=
    .next hnoGap rfl halone (.last hnoGap)
  rw [List.nil_append, List.append_nil] at htiled
  exact scan_eq_ok_iff.2 htiled

/-- Between two lexemes that follow each other stands a gap, and any gap that is not empty may take
its place. -/
theorem Tiled.exists_gap {before after : List Lexeme} {l l' : Lexeme}
    (htiled : Tiled offset cs (before ++ l :: l' :: after)) :
    ∃ front gap back, cs = front ++ (gap ++ back) ∧ offset + byteLength front = l.stop ∧
      l.stop + byteLength gap = l'.offset ∧ IsGap gap ∧ front ≠ [] ∧
      ∀ gap', gap' ≠ [] → IsGap gap' →
        Scans (front ++ (gap' ++ back)) ((before ++ l :: l' :: after).map Lexeme.token) := by
  -- Induction on the tokens before the gap. Each of them ends in front of the same character as
  -- before, the first of the text behind it, so only the last one meets the new gap.
  induction before generalizing offset cs with
  | nil =>
    cases htiled with
    | @next _ lead _ _ _ hisLead hstart hreads hbehind =>
      cases hbehind with
      | @next _ gap rest _ _ hisGap hstart' hreads' hbehind' =>
        refine ⟨lead ++ l.source, gap, l'.source ++ rest, ?_, ?_, hstart'.symm, hisGap, ?_, ?_⟩
        · rw [List.append_assoc]
        · rw [byteLength_append, ← Nat.add_assoc, ← hstart]
          rfl
        · exact List.append_ne_nil_of_right_ne_nil _ hreads.source_ne_nil
        · intro gap' hnonempty hisGap'
          have hrest' := scans_append_gap hisGap' (hreads'.scans hbehind'.scans)
          obtain ⟨d, gap', rfl⟩ := List.exists_cons_of_ne_nil hnonempty
          have hreads'' := hreads.of_stopsAlike
            (stopsAlike_blank (hisGap' d List.mem_cons_self) _ (gap' ++ (l'.source ++ rest)))
          rw [List.append_assoc]
          exact scans_append_gap hisLead (hreads''.scans hrest')
  | cons m before ih =>
    cases htiled with
    | @next _ lead _ _ _ hisLead hstart hreads hbehind =>
      obtain ⟨front, gap, back, rfl, hends, hstarts, hisGap, hnonempty, hreplaced⟩ := ih hbehind
      refine ⟨lead ++ (m.source ++ front), gap, back, ?_, ?_, hstarts, hisGap, ?_, ?_⟩
      · simp only [List.append_assoc]
      · rw [← hends, byteLength_append, byteLength_append, ← Nat.add_assoc, ← Nat.add_assoc,
          ← hstart]
        rfl
      · exact List.append_ne_nil_of_right_ne_nil _ (List.append_ne_nil_of_right_ne_nil _ hnonempty)
      · intro gap' hsome hisGap'
        obtain ⟨d, front, rfl⟩ := List.exists_cons_of_ne_nil hnonempty
        have hreads' : m.ReadsBefore (d :: front ++ (gap' ++ back)) :=
          hreads.of_stopsAlike (by rintro _ ⟨⟩; exact .inr rfl)
        rw [List.append_assoc, List.append_assoc]
        exact scans_append_gap hisLead (hreads'.scans (hreplaced gap' hsome hisGap'))

end

/-! ## Bytes -/

/-- The bytes of a text are counted character by character. -/
theorem size_utf8Encode (cs : List Char) : cs.utf8Encode.size = byteLength cs := by
  induction cs with
  | nil => rfl
  | cons c cs ih =>
    rw [List.utf8Encode_cons, ByteArray.size_append, ih, List.utf8Encode_singleton,
      List.size_toByteArray, String.length_utf8EncodeChar, byteLength]

theorem utf8ByteSize_ofList (cs : List Char) :
    (String.ofList cs).utf8ByteSize = byteLength cs := by
  rw [← size_utf8Encode, ← String.toByteArray_ofList]
  rfl

/-- The bytes of the blanks: ASCII whitespace without the vertical tab. -/
def isBlankByte (b : UInt8) : Bool := b = 0x20 || b = 0x09 || b = 0x0A || b = 0x0C || b = 0x0D

/-- Every byte of a gap is a blank. -/
theorem isBlankByte_of_isGap {gap : List Char} (hisGap : IsGap gap) {i : Nat}
    (hinside : i < gap.utf8Encode.size) : isBlankByte gap.utf8Encode[i] := by
  have hmem : gap.utf8Encode[i] ∈ gap.flatMap String.utf8EncodeChar := by
    simp only [List.utf8Encode, List.getElem_toByteArray]
    exact List.getElem_mem _
  obtain ⟨d, hinGap, hbyte⟩ := List.mem_flatMap.1 hmem
  generalize gap.utf8Encode[i] = b at hbyte
  rcases isBlank_cases (hisGap d hinGap) with rfl | rfl | rfl | rfl | rfl <;>
    (cases List.mem_singleton.1 hbyte; rfl)

/-- The bytes of `text` from `start` to `stop` are those of `part`, and both ends lie between
characters. -/
structure Slices (text : String) (start stop : Nat) (part : String) : Prop where
  start_valid : String.Pos.Raw.IsValid text ⟨start⟩
  stop_valid : String.Pos.Raw.IsValid text ⟨stop⟩
  bytes : text.toByteArray.extract start stop = part.toByteArray

/-- The end of a prefix lies between two characters. -/
theorem isValid_of_append {text : String} {front back : List Char}
    (hsplit : text.toList = front ++ back) :
    String.Pos.Raw.IsValid text ⟨byteLength front⟩ := by
  refine String.Pos.Raw.isValid_iff_exists_append.2
    ⟨String.ofList front, String.ofList back, ?_, ?_⟩
  · rw [← String.ofList_append, ← hsplit, String.ofList_toList]
  · rw [← utf8ByteSize_ofList]
    rfl

/-- A part of a text is cut out between the offsets of its ends. -/
theorem slices_of_append {text : String} {front part back : List Char}
    (hsplit : text.toList = front ++ (part ++ back)) :
    Slices text (byteLength front) (byteLength front + byteLength part) (String.ofList part) := by
  refine ⟨isValid_of_append hsplit, ?_, ?_⟩
  · rw [← byteLength_append]
    exact isValid_of_append (by rw [hsplit, List.append_assoc])
  · rw [← String.utf8Encode_toList, hsplit, List.utf8Encode_append, List.utf8Encode_append,
      String.toByteArray_ofList, ← size_utf8Encode, ← size_utf8Encode]
    exact (ByteArray.extract_append_size_add (i := 0)).trans (ByteArray.extract_append_eq_left rfl)

/-- The source of a lexeme is cut out of the text at the offset of its token, and so are, for a
text literal, the characters between the quotes. -/
structure Lexeme.Spans (l : Lexeme) (text : String) : Prop where
  nonempty : l.offset < l.stop
  source : Slices text l.offset l.stop (String.ofList l.source)
  contents : ∀ s, l.token = .text s → Slices text (l.offset + 1) (l.stop - 1) s

theorem utf8Size_quote {q : Char} (hquote : q = '\'' ∨ q = '"') : q.utf8Size = 1 := by
  rcases hquote with rfl | rfl <;> rfl

/-- Each token of a tiled text spans its source, between two characters. -/
theorem Tiled.spans {text : String} {lexemes : List Lexeme}
    (htiled : Tiled 0 text.toList lexemes) : ∀ l ∈ lexemes, l.Spans text := by
  intro l hmem
  obtain ⟨front, back, hsplit, hstart, hreads⟩ := htiled.exists_place l hmem
  rw [Nat.zero_add] at hstart
  refine ⟨hreads.offset_lt_stop, ?_, fun s hliteral => ?_⟩
  · rw [Lexeme.stop, hstart]
    exact slices_of_append hsplit
  · obtain ⟨c, cs, -, hsource, hread⟩ := hreads
    rw [hliteral] at hread
    obtain ⟨hquote, htaken⟩ := chars_of_read hread
    rw [List.take_left] at htaken
    have hinner : text.toList = (front ++ [c]) ++ (s.toList ++ ([c] ++ back)) := by
      rw [hsplit, hsource, htaken]
      simp
    have hslices := slices_of_append hinner
    have hone : byteLength [c] = 1 := utf8Size_quote hquote
    have hstop : l.stop - 1 = byteLength (front ++ [c]) + byteLength s.toList := by
      rw [Lexeme.stop, hsource, hstart, htaken, ← List.singleton_append, byteLength_append,
        byteLength_append, byteLength_append, hone]
      omega
    rw [hstop, hstart, ← hone, ← byteLength_append]
    rwa [String.ofList_toList] at hslices

/-- A byte that belongs to no lexeme is that of a blank. -/
theorem Tiled.isBlankByte {offset : Nat} {cs : List Char} {lexemes : List Lexeme}
    (htiled : Tiled offset cs lexemes) {i : Nat} (hinside : i < cs.utf8Encode.size)
    (houtside : ∀ l ∈ lexemes, ¬ (l.offset ≤ offset + i ∧ offset + i < l.stop)) :
    isBlankByte cs.utf8Encode[i] := by
  induction htiled generalizing i with
  | last hisGap => exact isBlankByte_of_isGap hisGap hinside
  | @next offset gap rest l ls hisGap hstart hreads _ ih =>
    obtain ⟨houtside, hothers⟩ := List.forall_mem_cons.1 houtside
    simp only [List.utf8Encode_append] at hinside ⊢
    by_cases hinGap : i < gap.utf8Encode.size
    · rw [ByteArray.getElem_append_left hinGap]
      exact isBlankByte_of_isGap hisGap hinGap
    · have hbehindGap := Nat.not_lt.1 hinGap
      have hsize := size_utf8Encode gap
      have hsize' := size_utf8Encode l.source
      have hbehind : l.source.utf8Encode.size ≤ i - gap.utf8Encode.size := by
        rw [Lexeme.stop] at houtside
        omega
      rw [ByteArray.getElem_append_right hbehindGap, ByteArray.getElem_append_right hbehind]
      refine ih _ fun l' hmem => ?_
      have hwhole : l.stop + (i - gap.utf8Encode.size - l.source.utf8Encode.size) = offset + i := by
        rw [Lexeme.stop]
        omega
      rw [hwhole]
      exact hothers l' hmem

/-! ## Tokens and gaps -/

/-- The tokens of a text tile it: their spans are cut out between characters, one behind the other,
and what stands between them is ASCII whitespace. Each span is scanned to its token on its own, and
any whitespace may stand in the gap between two spans, as long as there is some. -/
theorem tokens_tile_text (text : String) (lexemes : List Lexeme)
    (hscanned : Token.scan 0 text.toList = .ok lexemes) :
    (∀ l ∈ lexemes, l.Spans text) ∧
    (lexemes.Pairwise fun l l' => l.stop ≤ l'.offset) ∧
    (∀ i, ∀ hinside : i < text.toByteArray.size,
      (∀ l ∈ lexemes, ¬ (l.offset ≤ i ∧ i < l.stop)) → isBlankByte text.toByteArray[i]) ∧
    (∀ l ∈ lexemes, Token.scan 0 l.source = .ok [{ l with offset := 0 }]) ∧
    (∀ before l l' after, lexemes = before ++ l :: l' :: after →
      ∃ front gap back : String, text = front ++ gap ++ back ∧
        front.utf8ByteSize = l.stop ∧ (front ++ gap).utf8ByteSize = l'.offset ∧
        IsGap gap.toList ∧ ∀ gap' : String, gap' ≠ "" → IsGap gap'.toList →
          ∃ lexemes', Token.scan 0 (front ++ gap' ++ back).toList = .ok lexemes' ∧
            lexemes'.map Lexeme.token = lexemes.map Lexeme.token) := by
  have htiled := scan_eq_ok_iff.1 hscanned
  refine ⟨htiled.spans, htiled.pairwise, fun i hinside houtside => ?_, fun l hmem => ?_, ?_⟩
  · simp only [← String.utf8Encode_toList] at hinside ⊢
    refine htiled.isBlankByte hinside ?_
    rwa [Nat.zero_add]
  · obtain ⟨_, _, -, -, hreads⟩ := htiled.exists_place l hmem
    exact hreads.scan_source
  · rintro before l l' after rfl
    obtain ⟨front, gap, back, hsplit, hends, hstarts, hisGap, -, hreplaced⟩ := htiled.exists_gap
    rw [Nat.zero_add] at hends
    refine ⟨String.ofList front, String.ofList gap, String.ofList back, ?_, ?_, ?_, ?_,
      fun gap' hnonempty hisGap' => ?_⟩
    · rw [← String.ofList_append, ← String.ofList_append, List.append_assoc, ← hsplit,
        String.ofList_toList]
    · rw [utf8ByteSize_ofList, hends]
    · rw [← String.ofList_append, utf8ByteSize_ofList, byteLength_append, hends, hstarts]
    · rwa [String.toList_ofList]
    · have hsome : gap'.toList ≠ [] := fun hnone => hnonempty (String.toList_eq_nil_iff.1 hnone)
      simpa using hreplaced gap'.toList hsome hisGap' 0

/-- A text literal of two bytes between its quotes, next to a sum. -/
theorem tokens_tile_text_literal :
    let text := "'é'+	x"
    let lexemes : List Lexeme := [⟨.text "é", 0, ['\'', 'é', '\'']⟩, ⟨.mark .plus, 4, ['+']⟩,
      ⟨.name "x", 6, ['x']⟩]
    Token.scan 0 text.toList = .ok lexemes ∧ Slices text 1 3 "é" ∧
      (∀ l ∈ lexemes, Token.scan 0 l.source = .ok [{ l with offset := 0 }]) ∧
      ∃ front gap back : String, text = front ++ gap ++ back ∧ front.utf8ByteSize = 5 ∧
        ∃ lexemes', Token.scan 0 (front ++ "\n " ++ back).toList = .ok lexemes' ∧
          lexemes'.map Lexeme.token = [.text "é", .mark .plus, .name "x"] := by
  intro text lexemes
  have hchars : text.toList = ['\'', 'é', '\'', '+', '\t', 'x'] := by decide
  have hscanned : Token.scan 0 text.toList = .ok lexemes := by
    rw [hchars]
    with_unfolding_all rfl
  obtain ⟨hspans, -, -, halone, hgaps⟩ := tokens_tile_text text lexemes hscanned
  refine ⟨hscanned, ?_, halone, ?_⟩
  · exact (hspans _ List.mem_cons_self).contents "é" rfl
  · obtain ⟨front, gap, back, hsplit, hends, -, -, hreplaced⟩ := hgaps [_] _ _ [] rfl
    refine ⟨front, gap, back, hsplit, hends, hreplaced "\n " (by decide) ?_⟩
    simp [IsGap, isBlank]

end ColumnFlow
