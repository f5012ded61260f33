import ColumnFlow.Json.Token
import ColumnFlow.Proofs.Numbers.Numerals

/-!
# JSON tokens that read back

What a token is written as is scanned as that token, whatever stands behind it; behind a number
nothing may stand that a number could go on with.
-/

namespace ColumnFlow

namespace Json

/-! ## Texts -/

theorem hexValue?_digitChar : ∀ d < 16, hexValue? (Nat.digitChar d) = some d := by decide

/-- A short escape is read as its character. -/
theorem readPieces_short {e c : Char} (hshort : shortEscape? e = some c) (cs : List Char) :
    readPieces ('\\' :: e :: cs) = (readPieces cs).map fun r => (.char c :: r.1, r.2 + 2) := by
  have hother : e ≠ 'u' := by
    rintro rfl
    cases hshort
  rw [readPieces, hshort]
  · cases readPieces cs <;> rfl
  · exact fun _ _ _ _ _ hsame _ => hother hsame

/-- A unit of two digits is read as such. -/
theorem readPieces_unit {u : Nat} (hsmall : u < 0x20) (cs : List Char) :
    readPieces ('\\' :: 'u' :: '0' :: '0' ::
        Nat.digitChar (u / 16) :: Nat.digitChar (u % 16) :: cs) =
      (readPieces cs).map fun r => (.unit u :: r.1, r.2 + 6) := by
  have hzero : hexValue? '0' = some 0 := rfl
  have hvalue : ((0 * 16 + 0) * 16 + u / 16) * 16 + u % 16 = u := by omega
  rw [readPieces, hexValue?_digitChar _ (by omega), hexValue?_digitChar _ (by omega), hzero]
  simp only [Option.bind_eq_bind, Option.bind_some, hvalue]
  cases readPieces cs <;> rfl

/-- A character without an escape is read as itself. -/
theorem readPieces_plain {c : Char} (hquote : c ≠ '"') (hslash : c ≠ '\\')
    (hvisible : ¬ c.toNat < 0x20) (cs : List Char) :
    readPieces (c :: cs) = (readPieces cs).map fun r => (.char c :: r.1, r.2 + 1) := by
  rw [readPieces]
  · rw [if_neg (not_or.2 ⟨hslash, hvisible⟩)]
    cases readPieces cs <;> rfl
  · exact hquote
  · exact fun _ _ _ _ _ hsame _ => hslash hsame
  · exact fun _ _ hsame _ => hslash hsame

/-- A piece that stands for one character, whatever the pieces behind it are. -/
def Piece.Spells (p : Piece) (c : Char) : Prop :=
  ∀ ps, characters? (p :: ps) = (characters? ps).map (c :: ·)

theorem Piece.spells_char (c : Char) : (Piece.char c).Spells c := fun _ => rfl

/-- A unit below the surrogates spells a character by itself. -/
theorem Piece.spells_unit {u : Nat} (hlow : u < 0xD800) : (Piece.unit u).Spells (Char.ofNat u) := by
  have hhigh : isHighSurrogate u = false := by simp [isHighSurrogate]; omega
  have hlow : isLowSurrogate u = false := by simp [isLowSurrogate]; omega
  intro ps
  rcases ps with _ | ⟨⟨c⟩ | ⟨v⟩, ps⟩ <;> simp [characters?, hhigh, hlow]

/-- A written character is read as one piece, which spells it. -/
theorem readPieces_writeChar (c : Char) : ∃ p : Piece, p.Spells c ∧ ∀ cs,
    readPieces (writeChar c ++ cs) =
      (readPieces cs).map fun r => (p :: r.1, r.2 + (writeChar c).length) := by
  unfold writeChar escape?
  split
  · exact ⟨_, Piece.spells_char _, readPieces_short rfl⟩
  · exact ⟨_, Piece.spells_char _, readPieces_short rfl⟩
  · exact ⟨_, Piece.spells_char _, readPieces_short rfl⟩
  · exact ⟨_, Piece.spells_char _, readPieces_short rfl⟩
  · exact ⟨_, Piece.spells_char _, readPieces_short rfl⟩
  · exact ⟨_, Piece.spells_char _, readPieces_short rfl⟩
  · exact ⟨_, Piece.spells_char _, readPieces_short rfl⟩
  · rename_i hquote hslash _ _ _ _ _
    split
    · rename_i hcontrol
      have hspells := Piece.spells_unit (Nat.lt_trans hcontrol (by decide : 0x20 < 0xD800))
      rw [Char.ofNat_toNat] at hspells
      exact ⟨_, hspells, readPieces_unit hcontrol⟩
    · rename_i hvisible
      exact ⟨_, Piece.spells_char c, readPieces_plain hquote hslash hvisible⟩

/-- The pieces of a text up to its closing quote. -/
theorem readPieces_write (cs rest : List Char) : ∃ ps, characters? ps = some cs ∧
    readPieces (cs.flatMap writeChar ++ '"' :: rest) =
      some (ps, (cs.flatMap writeChar).length + 1) := by
  induction cs with
  | nil => exact ⟨[], rfl, rfl⟩
  | cons c cs ih =>
    obtain ⟨p, hspells, hread⟩ := readPieces_writeChar c
    obtain ⟨ps, hcharacters, hothers⟩ := ih
    refine ⟨p :: ps, by rw [hspells, hcharacters, Option.map_some], ?_⟩
    rw [List.flatMap_cons, List.append_assoc, hread, hothers, Option.map_some, List.length_append]
    congr 2
    omega

/-! ## Numerals -/

end Json

namespace Numeral

/-- The form of a number in JSON: digits before the point without a superfluous zero in front, and
digits behind it. -/
structure IsJson (n : Numeral) : Prop where
  nonempty : n.whole ≠ []
  whole : ∀ c ∈ n.whole, c.isDigit
  leading : ∀ cs, n.whole = '0' :: cs → cs = []
  fraction : ∀ c ∈ n.fraction, c.isDigit

/-- Digits begin with a zero only if there are no others. -/
theorem toDigits_eq_zero_cons {n : Nat} {cs : List Char} (hzero : Nat.toDigits 10 n = '0' :: cs) :
    n = 0 := by
  induction n using Nat.strongRecOn generalizing cs with
  | ind n ih =>
    rw [Nat.toDigits_eq_if (by decide)] at hzero
    split at hzero
    · rename_i hsmall
      have hdigit := (List.cons.inj hzero).1
      revert hsmall hdigit
      have hall : ∀ n < 10, n.digitChar = '0' → n = 0 := by decide
      exact hall n
    · rename_i hlarge
      obtain ⟨d, ds, hdigits⟩ := List.exists_cons_of_ne_nil
        (Nat.toDigits_ne_nil : Nat.toDigits 10 (n / 10) ≠ [])
      rw [hdigits, List.cons_append] at hzero
      obtain rfl := (List.cons.inj hzero).1
      have := ih (n / 10) (by omega) hdigits
      omega

theorem isJson_ofNat (n : Nat) : (ofNat n).IsJson := by
  refine ⟨Nat.toDigits_ne_nil, fun c => Nat.isDigit_of_mem_toDigits (by decide) (by decide),
    fun cs hzero => ?_, fun c => nofun⟩
  have hnothing : n = 0 := toDigits_eq_zero_cons hzero
  subst hnothing
  exact (List.cons.inj hzero).2.symm

theorem exists_digits (d : Decimal) : ∃ c cs, d.digits = c :: cs :=
  List.exists_cons_of_ne_nil Nat.toDigits_ne_nil

/-- A decimal that begins with a zero is zero. -/
theorem digits_eq_zero_cons {d : Decimal} {cs : List Char} (hzero : d.digits = '0' :: cs) :
    d = Decimal.zero := by
  obtain ⟨m, e, hcanonical⟩ := d
  have hnothing : m = 0 := toDigits_eq_zero_cons hzero
  subst hnothing
  have hscale : e = 0 := by simpa using hcanonical
  subst hscale
  rfl

/-- A decimal without an exponent has a zero in front only as its whole part. -/
theorem leading_positional (l : Layout) {d : Decimal} {cs : List Char}
    (hzero : (l.positionalNumeral d).whole = '0' :: cs) : cs = [] := by
  obtain ⟨c, ds, hdigits⟩ := exists_digits d
  by_cases hleast : d = .zero
  · subst hleast
    exact (List.cons.inj hzero).2.symm
  · have hfirst : c ≠ '0' := by
      rintro rfl
      exact hleast (digits_eq_zero_cons hdigits)
    unfold Layout.positionalNumeral at hzero
    dsimp only at hzero
    split at hzero
    · rw [hdigits] at hzero
      exact absurd (List.cons.inj hzero).1 hfirst
    · split at hzero
      · rename_i hfew
        obtain ⟨places, hsome⟩ := Nat.exists_eq_succ_of_ne_zero (Nat.sub_ne_zero_of_lt hfew)
        rw [hsome, hdigits, List.take_succ_cons] at hzero
        exact absurd (List.cons.inj hzero).1 hfirst
      · exact (List.cons.inj hzero).2.symm

/-- A decimal is written as JSON has it: one digit at least before the point, and none too many. -/
theorem isJson_numeral (d : Decimal) : (Layout.json.numeral d).IsJson := by
  unfold Layout.numeral
  split
  · have hpositional := isPositional .json d
    exact ⟨hpositional.nonempty, hpositional.whole, fun cs => leading_positional _,
      hpositional.fraction⟩
  · obtain ⟨c, ds, hdigits⟩ := exists_digits d
    have hall (c : Char) (hmem : c ∈ d.digits) : c.isDigit := isDigit_digits hmem
    refine ⟨?_, fun c hmem => hall c (List.mem_of_mem_take hmem), ?_,
      fun c hmem => hall c (List.mem_of_mem_drop hmem)⟩
    · simp [Layout.exponentNumeral, hdigits]
    · intro cs hzero
      have hone : [c] = '0' :: cs := by rw [← hzero, Layout.exponentNumeral, hdigits]; rfl
      exact (List.cons.inj hone).2.symm

/-! ## Reading numerals -/

variable {n : Numeral} {rest : List Char}

/-- The fraction of a numeral with its point. -/
def fractionChars (n : Numeral) : List Char :=
  if n.fraction.isEmpty then [] else '.' :: n.fraction

/-- The exponent of a numeral as JSON writes it. -/
def exponentChars (n : Numeral) : List Char :=
  (n.exponent.map (writeExponent Layout.json.plusSign)).getD []

theorem write_eq (n : Numeral) :
    n.write Layout.json.plusSign = n.whole ++ (n.fractionChars ++ n.exponentChars) :=
  List.append_assoc _ _ _

/-- Nothing that a number could go on with stands in front. -/
def Ends (rest : List Char) : Prop :=
  ∀ c ∈ rest.head?, c.isDigit = false ∧ c ≠ '.' ∧ c ≠ 'e' ∧ c ≠ 'E'

theorem ends_nil : Ends [] := fun _ => nofun

theorem ends_cons {c : Char} (hother : c.isDigit = false ∧ c ≠ '.' ∧ c ≠ 'e' ∧ c ≠ 'E')
    (cs : List Char) : Ends (c :: cs) :=
  fun _ hfront => Option.some.inj hfront ▸ hother

/-- Digits end where something else begins. -/
theorem span_append {ds : List Char} (hdigits : ∀ c ∈ ds, c.isDigit)
    (hstop : ∀ c ∈ rest.head?, c.isDigit = false) :
    (ds ++ rest).takeWhile Char.isDigit = ds ∧ (ds ++ rest).dropWhile Char.isDigit = rest := by
  rw [List.takeWhile_append_of_pos hdigits, List.dropWhile_append_of_pos hdigits]
  cases rest with
  | nil => simp
  | cons c cs => simp [hstop c rfl]

/-- The sign of an exponent as JSON writes it. -/
def exponentSign (e : Int) : Char := if e < 0 then '-' else '+'

theorem writeExponent_eq (e : Int) : writeExponent Layout.json.plusSign e =
    'e' :: exponentSign e :: Nat.toDigits 10 e.natAbs := by
  unfold writeExponent exponentSign
  split <;> rfl

/-- An exponent is read as it was written. -/
theorem readExponent?_write (e : Int) :
    readExponent? (exponentSign e :: Nat.toDigits 10 e.natAbs) = some e := by
  have hdigits : (Nat.toDigits 10 e.natAbs).all Char.isDigit = true :=
    List.all_eq_true.2 fun c => Nat.isDigit_of_mem_toDigits (by decide) (by decide)
  have hvalue : digitsValue 0 (Nat.toDigits 10 e.natAbs) = e.natAbs := by
    rw [digitsValue_eq, Nat.ofDigitChars_ten_toDigits]
  have hsign : (if e < 0 then -(e.natAbs : Int) else e.natAbs) = e := by omega
  unfold exponentSign
  split
  · rename_i hnegative
    simpa [readExponent?, hdigits, hvalue, hnegative] using hsign
  · rename_i hpositive
    simpa [readExponent?, hdigits, hvalue, hpositive] using hsign

/-- The numeral is read as it was written. -/
theorem IsJson.read?_write (hjson : n.IsJson) : read? (n.write Layout.json.plusSign) = some n := by
  obtain ⟨whole, fraction, exponent⟩ := n
  obtain ⟨hnonempty, hdigits, -, hdigits'⟩ := hjson
  have hbehind (f : List Char) (e : Option Int) :
      ∀ c ∈ (fractionChars ⟨whole, f, e⟩ ++ exponentChars ⟨whole, f, e⟩).head?,
        c.isDigit = false := by
    cases f <;> cases e <;> simp [fractionChars, exponentChars, writeExponent_eq]
  have hfront := span_append hdigits (hbehind fraction exponent)
  have hmiddle : ∀ c ∈ (exponentChars ⟨whole, fraction, exponent⟩).head?, c.isDigit = false := by
    cases exponent <;> simp [exponentChars, writeExponent_eq]
  have hback := span_append hdigits' hmiddle
  rw [write_eq]
  unfold read?
  rw [hfront.1, hfront.2]
  cases fraction with
  | nil =>
    cases exponent with
    | none => simp [fractionChars, exponentChars, hnonempty]
    | some e => simp [fractionChars, exponentChars, hnonempty, writeExponent_eq,
        readExponent?_write]
  | cons c cs =>
    simp only [fractionChars, List.isEmpty_cons, Bool.false_eq_true, if_false, List.cons_append]
    rw [← List.cons_append, hback.1, hback.2]
    cases exponent with
    | none => simp [exponentChars]
    | some e => simp [exponentChars, writeExponent_eq, readExponent?_write]

/-- What stands behind the whole part of a numeral. -/
theorem behind_whole (n : Numeral) (hends : Ends rest) :
    ∀ c ∈ (n.fractionChars ++ (n.exponentChars ++ rest)).head?, c.isDigit = false := by
  obtain ⟨whole, fraction, exponent⟩ := n
  cases fraction with
  | cons c cs => simp [fractionChars]
  | nil =>
    cases exponent with
    | some e => simp [fractionChars, exponentChars, writeExponent_eq]
    | none => exact fun c hfront => (hends c hfront).1

/-- What stands behind the fraction of a numeral. -/
theorem behind_fraction (n : Numeral) (hends : Ends rest) :
    ∀ c ∈ (n.exponentChars ++ rest).head?, c.isDigit = false ∧ c ≠ '.' := by
  obtain ⟨whole, fraction, exponent⟩ := n
  cases exponent with
  | some e => simp [exponentChars, writeExponent_eq]
  | none => exact fun c hfront => ⟨(hends c hfront).1, (hends c hfront).2.1⟩

end Numeral

/-! ## Scanning numbers -/

namespace Json

open Numeral

variable {n : Numeral} {rest : List Char}

theorem digitCount_append {ds : List Char} (hdigits : ∀ c ∈ ds, c.isDigit)
    (hstop : ∀ c ∈ rest.head?, c.isDigit = false) : digitCount (ds ++ rest) = ds.length :=
  congrArg List.length (span_append hdigits hstop).1

/-- The whole part of a numeral ends where no digit follows. -/
theorem wholeLength_append (hjson : n.IsJson) (hstop : ∀ c ∈ rest.head?, c.isDigit = false) :
    wholeLength (n.whole ++ rest) = n.whole.length := by
  have hcount := digitCount_append hjson.whole hstop
  obtain ⟨c, cs, hwhole⟩ := List.exists_cons_of_ne_nil hjson.nonempty
  rw [hwhole] at hcount ⊢
  by_cases hzero : c = '0'
  · subst hzero
    rw [hjson.leading cs hwhole]
    rfl
  · rw [List.cons_append, wholeLength]
    · exact hcount
    · exact fun _ hsame => hzero (List.cons.inj hsame).1

/-- A fraction ends where neither a digit nor a point follows. -/
theorem fractionLength?_append (hjson : n.IsJson)
    (hstop : ∀ c ∈ rest.head?, c.isDigit = false ∧ c ≠ '.') :
    fractionLength? (n.fractionChars ++ rest) = some n.fractionChars.length := by
  have hcount := digitCount_append hjson.fraction fun c hfront => (hstop c hfront).1
  unfold fractionChars
  split
  · cases rest with
    | nil => rfl
    | cons c cs =>
      rw [List.nil_append, fractionLength?]
      · rfl
      · exact fun _ hsame => (hstop c rfl).2 (List.cons.inj hsame).1
  · rename_i hnonempty
    rw [List.cons_append, fractionLength?, hcount, if_neg]
    · rfl
    · simpa using hnonempty

/-- An exponent ends where the numeral does. -/
theorem exponentLength?_append (n : Numeral) (hends : Ends rest) :
    exponentLength? (n.exponentChars ++ rest) = some n.exponentChars.length := by
  obtain ⟨whole, fraction, exponent⟩ := n
  cases exponent with
  | none =>
    cases rest with
    | nil => rfl
    | cons c cs =>
      obtain ⟨-, -, hsmall, hlarge⟩ := hends c rfl
      simp [exponentChars, exponentLength?, hsmall, hlarge]
  | some e =>
    have hcount : digitCount (Nat.toDigits 10 e.natAbs ++ rest) =
      (Nat.toDigits 10 e.natAbs).length :=
      digitCount_append (fun c => Nat.isDigit_of_mem_toDigits (by decide) (by decide))
        fun c hfront => (hends c hfront).1
    have hnonempty : (Nat.toDigits 10 e.natAbs).length ≠ 0 :=
      Nat.pos_iff_ne_zero.1 Nat.length_toDigits_pos
    have hsign (cs : List Char) : signLength (exponentSign e :: cs) = 1 := by
      unfold exponentSign
      split <;> rfl
    simp only [exponentChars, Option.map_some, Option.getD_some, writeExponent_eq,
      List.cons_append, exponentLength?, true_or, if_true, hsign, List.drop_succ_cons,
      List.drop_zero, hcount, if_neg hnonempty, List.length_cons]
    congr 1
    omega

/-- A written numeral is read up to its end. -/
theorem readMagnitude_write (hjson : n.IsJson) (hends : Ends rest) (negative : Bool) :
    readMagnitude negative (n.write Layout.json.plusSign ++ rest) =
      some (⟨negative, n⟩, (n.write Layout.json.plusSign).length) := by
  have htext : n.write Layout.json.plusSign ++ rest =
      n.whole ++ (n.fractionChars ++ (n.exponentChars ++ rest)) := by
    rw [write_eq, List.append_assoc, List.append_assoc]
  have hlength : n.whole.length + n.fractionChars.length + n.exponentChars.length =
      (n.write Layout.json.plusSign).length := by
    rw [write_eq, List.length_append, List.length_append, Nat.add_assoc]
  have hwhole : wholeLength (n.write Layout.json.plusSign ++ rest) = n.whole.length := by
    rw [htext]
    exact wholeLength_append hjson (behind_whole n hends)
  have hfraction : fractionLength? ((n.write Layout.json.plusSign ++ rest).drop n.whole.length) =
      some n.fractionChars.length := by
    rw [htext, List.drop_left]
    exact fractionLength?_append hjson (behind_fraction n hends)
  have hexponent : exponentLength? ((n.write Layout.json.plusSign ++ rest).drop
      (n.whole.length + n.fractionChars.length)) = some n.exponentChars.length := by
    rw [htext, ← List.drop_drop, List.drop_left, List.drop_left]
    exact exponentLength?_append n hends
  have hnonempty : n.whole.length ≠ 0 := by simpa using hjson.nonempty
  simp only [readMagnitude, hwhole, hnonempty, if_false, hfraction, hexponent, hlength,
    List.take_left, hjson.read?_write, Option.pure_def, Option.bind_eq_bind, Option.bind_some]

/-! ## Scanning tokens -/

namespace Token

/-- Numbers are in the form of JSON, and texts have characters. -/
def IsJson : Token → Prop
  | .number n => n.numeral.IsJson
  | .text s => s.isSome
  | _ => True

/-- A token at the front is scanned first, and scanning goes on behind it. -/
theorem scan_front {c : Char} {cs : List Char} {t : Token} (hvisible : isBlank c = false)
    (hfront : read c (cs ++ rest) = some (t, cs.length)) :
    scan (c :: cs ++ rest) = (scan rest).map (t :: ·) := by
  rw [List.cons_append, scan, if_neg (Bool.not_eq_true _ ▸ hvisible), hfront]
  dsimp only
  rw [List.drop_left]

theorem read_quote (cs : List Char) : read '"' cs =
    (readPieces cs).map fun r => (.text ((characters? r.1).map String.ofList), r.2) := rfl

theorem read_minus (cs : List Char) :
    read '-' cs = (readMagnitude true cs).map fun r => (.number r.1, r.2) := rfl

theorem read_digit {c : Char} (hdigit : c.isDigit) (cs : List Char) :
    read c cs = (readMagnitude false (c :: cs)).map fun r => (.number r.1, r.2 - 1) := by
  unfold read
  split <;> first | rfl | exact absurd hdigit (by decide)

theorem isBlank_of_isDigit {c : Char} (hdigit : c.isDigit) : isBlank c = false := by
  have hspace : c ≠ ' ' := by rintro rfl; exact absurd hdigit (by decide)
  have htab : c ≠ '\t' := by rintro rfl; exact absurd hdigit (by decide)
  have hline : c ≠ '\n' := by rintro rfl; exact absurd hdigit (by decide)
  have hback : c ≠ '\r' := by rintro rfl; exact absurd hdigit (by decide)
  simp [isBlank, hspace, htab, hline, hback]

/-- Text is scanned as it was written, in front of anything. -/
theorem scan_text (s : String) (rest : List Char) :
    scan (writeText s ++ rest) = (scan rest).map (.text (some s) :: ·) := by
  obtain ⟨ps, hcharacters, hpieces⟩ := readPieces_write s.toList rest
  have hfront : read '"' (s.toList.flatMap writeChar ++ ['"'] ++ rest) =
      some (.text (some s), (s.toList.flatMap writeChar ++ ['"']).length) := by
    rw [List.append_assoc, List.singleton_append, read_quote, hpieces, Option.map_some, hcharacters,
      Option.map_some, String.ofList_toList, List.length_append, List.length_singleton]
  exact scan_front rfl hfront

/-- A number is scanned as it was written, in front of anything that does not go on with it. -/
theorem scan_number {n : Number} (hjson : n.numeral.IsJson) (hends : Ends rest) :
    scan (n.write ++ rest) = (scan rest).map (.number n :: ·) := by
  obtain ⟨negative, numeral⟩ := n
  have hmagnitude := readMagnitude_write hjson hends negative
  cases negative with
  | true =>
    have hfront : read '-' (numeral.write Layout.json.plusSign ++ rest) =
        some (.number ⟨true, numeral⟩, (numeral.write Layout.json.plusSign).length) := by
      rw [read_minus, hmagnitude, Option.map_some]
    exact scan_front rfl hfront
  | false =>
    obtain ⟨c, cs, hwhole⟩ := List.exists_cons_of_ne_nil hjson.nonempty
    have hdigit : c.isDigit := hjson.whole c (hwhole ▸ List.mem_cons_self)
    have hchars : numeral.write Layout.json.plusSign =
        c :: (cs ++ (numeral.fractionChars ++ numeral.exponentChars)) := by
      rw [write_eq, hwhole, List.cons_append]
    rw [hchars, List.cons_append] at hmagnitude
    have hfront :=
      read_digit hdigit (cs ++ (numeral.fractionChars ++ numeral.exponentChars) ++ rest)
    rw [hmagnitude, Option.map_some, List.length_cons, Nat.add_sub_cancel] at hfront
    have htext : Number.write ⟨false, numeral⟩ = numeral.write Layout.json.plusSign := rfl
    rw [htext, hchars]
    exact scan_front (isBlank_of_isDigit hdigit) hfront

/-- What a token is written as is scanned as that token. -/
theorem scan_write {t : Token} (hjson : t.IsJson) (hends : ∀ n, t = .number n → Ends rest) :
    scan (t.write ++ rest) = (scan rest).map (t :: ·) := by
  cases t with
  | number n => exact scan_number hjson (hends n rfl)
  | text s =>
    obtain ⟨s, rfl⟩ := Option.isSome_iff_exists.1 hjson
    exact scan_text s rest
  | bool b => cases b <;> exact scan_front rfl rfl
  | null => exact scan_front rfl rfl
  | leftBracket => exact scan_front rfl rfl
  | rightBracket => exact scan_front rfl rfl
  | leftBrace => exact scan_front rfl rfl
  | rightBrace => exact scan_front rfl rfl
  | comma => exact scan_front rfl rfl
  | colon => exact scan_front rfl rfl

end Token

end Json

end ColumnFlow
