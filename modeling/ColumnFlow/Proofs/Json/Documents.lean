import ColumnFlow.Json.Reader
import ColumnFlow.Json.Writer
import ColumnFlow.Proofs.Json.Tokens

/-!
# JSON documents that read back

The tokens of a document are read as that document, and so is its text if every token of it is in
the form of JSON.
-/

namespace ColumnFlow.Json

/-! ## Reading tokens -/

/-- What a rule has read and what it leaves, without the bound on its length. -/
def Read.outcome {α : Type} {bound : Nat} (x : Read α bound) : Option (α × List Token) :=
  x.map fun r => (r.value, r.rest)

/-- An outcome says what was read and what is left, without the bound on the latter. -/
theorem outcome_eq_some_iff {α : Type} {bound : Nat} {x : Read α bound} {a : α}
    {rest : List Token} :
    x.outcome = some (a, rest) ↔ ∃ hshorter, x = some ⟨a, rest, hshorter⟩ := by
  unfold Read.outcome
  rw [Option.map_eq_some_iff]
  constructor
  · rintro ⟨⟨value, left, hshorter⟩, rfl, hsame⟩
    cases hsame
    exact ⟨hshorter, rfl⟩
  · rintro ⟨hshorter, rfl⟩
    exact ⟨_, rfl, rfl⟩

variable {ts r rest : List Token}

/-- An item before a closing bracket is the last one. -/
theorem readItems_last {j : Json}
    (hlast : (readDocument ts).outcome = some (j, .rightBracket :: r)) :
    (readItems ts).outcome = some ([j], r) := by
  obtain ⟨hshorter, hread⟩ := outcome_eq_some_iff.1 hlast
  rw [readItems, hread]
  rfl

/-- An item before a comma comes ahead of the others. -/
theorem readItems_more {j : Json} {js : List Json}
    (hfirst : (readDocument ts).outcome = some (j, .comma :: r))
    (hothers : (readItems r).outcome = some (js, rest)) :
    (readItems ts).outcome = some (j :: js, rest) := by
  obtain ⟨hshorter, hread⟩ := outcome_eq_some_iff.1 hfirst
  obtain ⟨hshorter', hread'⟩ := outcome_eq_some_iff.1 hothers
  rw [readItems, hread]
  simp only [Option.bind_eq_bind, Option.bind_some, hread']
  rfl

/-- A member before a closing brace is the last one. -/
theorem readMembers_last {key : Text} {j : Json}
    (hlast : (readDocument ts).outcome = some (j, .rightBrace :: r)) :
    (readMembers (.text key :: .colon :: ts)).outcome = some ([(key, j)], r) := by
  obtain ⟨hshorter, hread⟩ := outcome_eq_some_iff.1 hlast
  rw [readMembers, hread]
  rfl

/-- A member before a comma comes ahead of the others. -/
theorem readMembers_more {key : Text} {j : Json} {ms : List (Text × Json)}
    (hfirst : (readDocument ts).outcome = some (j, .comma :: r))
    (hothers : (readMembers r).outcome = some (ms, rest)) :
    (readMembers (.text key :: .colon :: ts)).outcome = some ((key, j) :: ms, rest) := by
  obtain ⟨hshorter, hread⟩ := outcome_eq_some_iff.1 hfirst
  obtain ⟨hshorter', hread'⟩ := outcome_eq_some_iff.1 hothers
  rw [readMembers, hread]
  simp only [Option.bind_eq_bind, Option.bind_some, hread']
  rfl

/-- An array that is not empty is read item by item. -/
theorem readDocument_array {js : List Json} (hitems : (readItems ts).outcome = some (js, rest))
    (hnonempty : ts.head? ≠ some .rightBracket) :
    (readDocument (.leftBracket :: ts)).outcome = some (.array js, rest) := by
  obtain ⟨hshorter, hread⟩ := outcome_eq_some_iff.1 hitems
  rw [readDocument, hread]
  · rfl
  · rintro r rfl
    exact hnonempty rfl

/-- An object that is not empty is read member by member. -/
theorem readDocument_object {ms : List (Text × Json)}
    (hmembers : (readMembers ts).outcome = some (ms, rest))
    (hnonempty : ts.head? ≠ some .rightBrace) :
    (readDocument (.leftBrace :: ts)).outcome = some (.object ms, rest) := by
  obtain ⟨hshorter, hread⟩ := outcome_eq_some_iff.1 hmembers
  rw [readDocument, hread]
  · rfl
  · rintro r rfl
    exact hnonempty rfl

/-! ## Tokens of documents -/

/-- No document begins with a closing bracket. -/
theorem tokens_eq_cons (j : Json) : ∃ t ts, j.tokens = t :: ts ∧ t ≠ .rightBracket := by
  cases j <;> exact ⟨_, _, rfl, Token.noConfusion⟩

theorem itemTokens_eq_append (j : Json) (js : List Json) :
    ∃ ts, itemTokens (j :: js) = j.tokens ++ ts := by
  cases js <;> exact ⟨_, rfl⟩

theorem head?_itemTokens (j : Json) (js : List Json) :
    (itemTokens (j :: js) ++ rest).head? ≠ some .rightBracket := by
  obtain ⟨t, ts, hfront, hother⟩ := tokens_eq_cons j
  obtain ⟨behind, hitems⟩ := itemTokens_eq_append j js
  rw [hitems, hfront]
  exact fun hsame => hother (Option.some.inj hsame)

theorem head?_memberTokens (m : Text × Json) (ms : List (Text × Json)) :
    (memberTokens (m :: ms) ++ rest).head? ≠ some .rightBrace := by
  cases ms <;> simp [memberTokens]

mutual

/-- The tokens of a document are read as that document. -/
theorem readDocument_tokens : ∀ (j : Json) (rest : List Token),
    (readDocument (j.tokens ++ rest)).outcome = some (j, rest)
  | .null, rest => by
    rw [tokens, List.singleton_append, readDocument]
    rfl
  | .bool b, rest => by
    rw [tokens, List.singleton_append, readDocument]
    rfl
  | .number n, rest => by
    rw [tokens, List.singleton_append, readDocument]
    rfl
  | .text s, rest => by
    rw [tokens, List.singleton_append, readDocument]
    rfl
  | .array [], rest => by
    rw [tokens, itemTokens, List.cons_append, List.singleton_append, readDocument]
    rfl
  | .array (j :: js), rest => by
    rw [tokens, List.cons_append]
    exact readDocument_array (readItems_tokens (j :: js) (List.cons_ne_nil j js) rest)
      (head?_itemTokens j js)
  | .object [], rest => by
    rw [tokens, memberTokens, List.cons_append, List.singleton_append, readDocument]
    rfl
  | .object (m :: ms), rest => by
    rw [tokens, List.cons_append]
    exact readDocument_object (readMembers_tokens (m :: ms) (List.cons_ne_nil m ms) rest)
      (head?_memberTokens m ms)

/-- The tokens of items are read as these items, in front of anything. -/
theorem readItems_tokens : ∀ js : List Json, js ≠ [] → ∀ rest : List Token,
    (readItems (itemTokens js ++ rest)).outcome = some (js, rest)
  | [], hnonempty, rest => absurd rfl hnonempty
  | [j], _, rest => by
    rw [itemTokens, List.append_assoc]
    exact readItems_last (readDocument_tokens j _)
  | j :: j' :: js, _, rest => by
    have hothers := readItems_tokens (j' :: js) (List.cons_ne_nil j' js) rest
    rw [itemTokens, List.append_assoc, List.cons_append]
    · exact readItems_more (readDocument_tokens j _) hothers
    · exact List.cons_ne_nil j' js

/-- The tokens of members are read as these members, in front of anything. -/
theorem readMembers_tokens : ∀ ms : List (Text × Json), ms ≠ [] → ∀ rest : List Token,
    (readMembers (memberTokens ms ++ rest)).outcome = some (ms, rest)
  | [], hnonempty, rest => absurd rfl hnonempty
  | [(key, j)], _, rest => by
    rw [memberTokens, List.cons_append, List.cons_append, List.append_assoc]
    exact readMembers_last (readDocument_tokens j _)
  | (key, j) :: m :: ms, _, rest => by
    have hothers := readMembers_tokens (m :: ms) (List.cons_ne_nil m ms) rest
    rw [memberTokens, List.cons_append, List.cons_append, List.append_assoc, List.cons_append]
    · exact readMembers_more (readDocument_tokens j _) hothers
    · exact List.cons_ne_nil m ms

end

/-- The tokens of a document are read as that document. -/
theorem ofTokens?_tokens (j : Json) : ofTokens? j.tokens = some j := by
  have hall := readDocument_tokens j []
  rw [List.append_nil] at hall
  obtain ⟨hshorter, hread⟩ := outcome_eq_some_iff.1 hall
  rw [ofTokens?, hread]
  rfl

/-! ## Texts of documents -/

/-- Every token of the document is in the form of JSON. -/
def IsJson (j : Json) : Prop := ∀ t ∈ j.tokens, t.IsJson

/-- The characters of tokens, one behind the other, are scanned as these tokens. -/
def Scans (ts : List Token) (cs : List Char) : Prop :=
  Token.scan (ts.flatMap Token.write ++ cs) = (Token.scan cs).map (ts ++ ·)

/-- Tokens whose text is scanned in front of what follows can be put together. -/
theorem scans_append {ts ts' : List Token} {cs : List Char}
    (hfront : Scans ts (ts'.flatMap Token.write ++ cs)) (hback : Scans ts' cs) :
    Scans (ts ++ ts') cs := by
  unfold Scans at *
  rw [List.flatMap_append, List.append_assoc, hfront, hback, Option.map_map]
  congr 1
  funext rest
  exact (List.append_assoc _ _ _).symm

variable {cs : List Char}

/-- A token in the form of JSON is scanned from its text, a number only where it ends. -/
theorem scans_token {t : Token} (hjson : t.IsJson) (hends : ∀ n, t = .number n → Numeral.Ends cs) :
    Scans [t] cs := by
  unfold Scans
  rw [List.flatMap_singleton]
  exact Token.scan_write hjson hends

theorem scans_leftBracket : Scans [.leftBracket] cs := scans_token trivial nofun

theorem scans_rightBracket : Scans [.rightBracket] cs := scans_token trivial nofun

theorem scans_leftBrace : Scans [.leftBrace] cs := scans_token trivial nofun

theorem scans_rightBrace : Scans [.rightBrace] cs := scans_token trivial nofun

theorem scans_comma : Scans [.comma] cs := scans_token trivial nofun

theorem scans_key {key : Text} (hjson : (Token.text key).IsJson) : Scans [.text key, .colon] cs :=
  scans_append (scans_token hjson nofun) (scans_token trivial nofun : Scans [.colon] cs)

mutual

/-- The characters of a document are scanned as its tokens. -/
theorem scans_tokens : ∀ (j : Json) (cs : List Char), j.IsJson → Numeral.Ends cs →
    Scans j.tokens cs
  | .null, _, hjson, _ => scans_token (hjson _ List.mem_cons_self) nofun
  | .bool _, _, hjson, _ => scans_token (hjson _ List.mem_cons_self) nofun
  | .number _, _, hjson, hends => scans_token (hjson _ List.mem_cons_self) fun _ _ => hends
  | .text _, _, hjson, _ => scans_token (hjson _ List.mem_cons_self) nofun
  | .array js, cs, hjson, _ =>
    scans_append scans_leftBracket (scans_itemTokens js cs (List.forall_mem_cons.1 hjson).2)
  | .object ms, cs, hjson, _ =>
    scans_append scans_leftBrace (scans_memberTokens ms cs (List.forall_mem_cons.1 hjson).2)

/-- Items in the form of JSON are scanned from their text. -/
theorem scans_itemTokens : ∀ (js : List Json) (cs : List Char), (∀ t ∈ itemTokens js, t.IsJson) →
    Scans (itemTokens js) cs
  | [], _, _ => scans_rightBracket
  | [j], _, hjson => by
    obtain ⟨hitem, -⟩ := List.forall_mem_append.1 hjson
    exact scans_append (scans_tokens j _ hitem (Numeral.ends_cons (by decide) _)) scans_rightBracket
  | j :: j' :: js, cs, hjson => by
    obtain ⟨hitem, hbehind⟩ := List.forall_mem_append.1 hjson
    have hothers := scans_itemTokens (j' :: js) cs (List.forall_mem_cons.1 hbehind).2
    exact scans_append (scans_tokens j _ hitem (Numeral.ends_cons (by decide) _))
      (scans_append scans_comma hothers)

/-- Members in the form of JSON are scanned from their text. -/
theorem scans_memberTokens : ∀ (ms : List (Text × Json)) (cs : List Char),
    (∀ t ∈ memberTokens ms, t.IsJson) → Scans (memberTokens ms) cs
  | [], _, _ => scans_rightBrace
  | [(_, j)], _, hjson => by
    obtain ⟨hmember, -⟩ := List.forall_mem_append.1 hjson
    obtain ⟨hkey, hvalue⟩ := List.forall_mem_cons.1 hmember
    obtain ⟨-, hitem⟩ := List.forall_mem_cons.1 hvalue
    exact scans_append (scans_append (scans_key hkey)
      (scans_tokens j _ hitem (Numeral.ends_cons (by decide) _))) scans_rightBrace
  | (_, j) :: m :: ms, cs, hjson => by
    obtain ⟨hmember, hbehind⟩ := List.forall_mem_append.1 hjson
    obtain ⟨hkey, hvalue⟩ := List.forall_mem_cons.1 hmember
    obtain ⟨-, hitem⟩ := List.forall_mem_cons.1 hvalue
    have hothers := scans_memberTokens (m :: ms) cs (List.forall_mem_cons.1 hbehind).2
    exact scans_append (scans_append (scans_key hkey)
      (scans_tokens j _ hitem (Numeral.ends_cons (by decide) _))) (scans_append scans_comma hothers)

end

/-- A document in the form of JSON is read from its text. -/
theorem read?_compact {j : Json} (hjson : j.IsJson) : read? j.compact = some j := by
  have hscanned := scans_tokens j [] hjson Numeral.ends_nil
  unfold Scans at hscanned
  rw [List.append_nil, Token.scan, Option.map_some, List.append_nil] at hscanned
  rw [read?, compact, String.toList_ofList, ofChars?, hscanned, Option.bind_some, ofTokens?_tokens]

/-! ## Documents in the form of JSON -/

theorem isJson_ofString (s : String) : (ofString s).IsJson := List.forall_mem_singleton.2 rfl

/-- The tokens of items are in the form of JSON if the items are. -/
theorem isJson_itemTokens {items : List Json} (hall : ∀ j ∈ items, j.IsJson) :
    ∀ t ∈ itemTokens items, t.IsJson := by
  induction items with
  | nil => exact List.forall_mem_singleton.2 trivial
  | cons j js ih =>
    obtain ⟨hfirst, hrest⟩ := List.forall_mem_cons.1 hall
    cases js with
    | nil => exact List.forall_mem_append.2 ⟨hfirst, List.forall_mem_singleton.2 trivial⟩
    | cons j' js =>
      exact List.forall_mem_append.2 ⟨hfirst, List.forall_mem_cons.2 ⟨trivial, ih hrest⟩⟩

theorem isJson_array {items : List Json} (hall : ∀ j ∈ items, j.IsJson) : (array items).IsJson :=
  List.forall_mem_cons.2 ⟨trivial, isJson_itemTokens hall⟩

/-- The tokens of members are in the form of JSON if the members are. -/
theorem isJson_memberTokens {members : List (Text × Json)}
    (hall : ∀ m ∈ members, m.1.isSome ∧ m.2.IsJson) : ∀ t ∈ memberTokens members, t.IsJson := by
  induction members with
  | nil => exact List.forall_mem_singleton.2 trivial
  | cons m ms ih =>
    obtain ⟨⟨hkey, hvalue⟩, hrest⟩ := List.forall_mem_cons.1 hall
    have hfirst : ∀ t ∈ Token.text m.1 :: .colon :: m.2.tokens, t.IsJson :=
      List.forall_mem_cons.2 ⟨hkey, List.forall_mem_cons.2 ⟨trivial, hvalue⟩⟩
    cases ms with
    | nil => exact List.forall_mem_append.2 ⟨hfirst, List.forall_mem_singleton.2 trivial⟩
    | cons m' ms =>
      exact List.forall_mem_append.2 ⟨hfirst, List.forall_mem_cons.2 ⟨trivial, ih hrest⟩⟩

/-- An object with ordinary keys is in the form of JSON if its members are. -/
theorem isJson_ofMembers {members : List (String × Json)} (hall : ∀ m ∈ members, m.2.IsJson) :
    (ofMembers members).IsJson := by
  refine List.forall_mem_cons.2 ⟨trivial, isJson_memberTokens ?_⟩
  rw [List.forall_mem_map]
  exact fun m hmem => ⟨rfl, hall m hmem⟩

end ColumnFlow.Json
