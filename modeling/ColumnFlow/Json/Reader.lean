import ColumnFlow.Json.Token
import ColumnFlow.Reading

/-!
# Reading JSON

A JSON text is cut into tokens, and the tokens are read by one rule for each kind of
container. A text is accepted if its tokens are exactly one document.
-/

namespace ColumnFlow.Json

/-- The answer of a rule that leaves fewer than `bound` tokens. -/
abbrev Read (α : Type) (bound : Nat) : Type := Option (Reading Token α bound)

mutual

/-- The document at the front. -/
def readDocument (ts : List Token) : Read Json ts.length :=
  match ts with
  | .null :: r => some ⟨.null, r, Nat.lt_succ_self _⟩
  | .bool b :: r => some ⟨.bool b, r, Nat.lt_succ_self _⟩
  | .number n :: r => some ⟨.number n, r, Nat.lt_succ_self _⟩
  | .text s :: r => some ⟨.text s, r, Nat.lt_succ_self _⟩
  | .leftBracket :: .rightBracket :: r =>
    some ⟨.array [], r, Nat.lt_succ_of_lt (Nat.lt_succ_self _)⟩
  | .leftBracket :: r => do
    let items ← readItems r
    return ⟨.array items.value, items.rest, Nat.lt_succ_of_lt items.shorter⟩
  | .leftBrace :: .rightBrace :: r =>
    some ⟨.object [], r, Nat.lt_succ_of_lt (Nat.lt_succ_self _)⟩
  | .leftBrace :: r => do
    let members ← readMembers r
    return ⟨.object members.value, members.rest, Nat.lt_succ_of_lt members.shorter⟩
  | _ => none
termination_by 2 * ts.length
decreasing_by all_goals simp only [List.length_cons]; omega

/-- One or more documents separated by commas, and the bracket that closes them. -/
def readItems (ts : List Token) : Read (List Json) ts.length := do
  let first ← readDocument ts
  match h : first.rest with
  | .comma :: r =>
    let others ← readItems r
    return ⟨first.value :: others.value, others.rest, by
      have := first.shorter; have := others.shorter; simp_all; omega⟩
  | .rightBracket :: r =>
    return ⟨[first.value], r, by have := first.shorter; simp_all; omega⟩
  | _ => none
termination_by 2 * ts.length + 1
decreasing_by
  · omega
  · have := first.shorter; simp_all; omega

/-- One or more members separated by commas, and the brace that closes them. -/
def readMembers (ts : List Token) : Read (List (Text × Json)) ts.length :=
  match ts with
  | .text key :: .colon :: r => do
    let first ← readDocument r
    match h : first.rest with
    | .comma :: r' =>
      let others ← readMembers r'
      return ⟨(key, first.value) :: others.value, others.rest, by
        have := first.shorter; have := others.shorter; simp_all; omega⟩
    | .rightBrace :: r' =>
      return ⟨[(key, first.value)], r', by have := first.shorter; simp_all; omega⟩
    | _ => none
  | _ => none
termination_by 2 * ts.length
decreasing_by
  · simp only [List.length_cons]; omega
  · have := first.shorter; simp_all; omega

end

/-- The document that a list of tokens spells, all of them. -/
def ofTokens? (ts : List Token) : Option Json := do
  let document ← readDocument ts
  if document.rest.isEmpty then some document.value else none

/-- The document of a text given by its characters. -/
def ofChars? (cs : List Char) : Option Json := (Token.scan cs).bind ofTokens?

/-- The document of a text. -/
def read? (text : String) : Option Json := ofChars? text.toList

end ColumnFlow.Json
