import ColumnFlow.Json.Token

/-!
# Writing JSON

A document is written in one line without blanks, or with one item to a line and two
spaces for each level.
-/

namespace ColumnFlow.Json

-- ---------------------------------------------------------------------------
-- One line
-- ---------------------------------------------------------------------------

mutual

/-- The tokens of a document. -/
def tokens : Json → List Token
  | .null => [.null]
  | .bool b => [.bool b]
  | .number n => [.number n]
  | .text s => [.text s]
  | .array items => .leftBracket :: itemTokens items
  | .object members => .leftBrace :: memberTokens members

/-- The tokens of items up to the closing bracket. -/
def itemTokens : List Json → List Token
  | [] => [.rightBracket]
  | [j] => j.tokens ++ [.rightBracket]
  | j :: js => j.tokens ++ .comma :: itemTokens js

/-- The tokens of members up to the closing brace. -/
def memberTokens : List (Text × Json) → List Token
  | [] => [.rightBrace]
  | [m] => .text m.1 :: .colon :: m.2.tokens ++ [.rightBrace]
  | m :: ms => .text m.1 :: .colon :: m.2.tokens ++ .comma :: memberTokens ms

end

/-- The text of a document in one line. -/
def compact (j : Json) : String := String.ofList (j.tokens.flatMap Token.write)

-- ---------------------------------------------------------------------------
-- One item to a line
-- ---------------------------------------------------------------------------

/-- A new line at a level. -/
def newLine (level : Nat) : List Char := '\n' :: List.replicate (2 * level) ' '

mutual

/-- The characters of a document at a level. -/
def prettyChars (level : Nat) : Json → List Char
  | .array [] => ['[', ']']
  | .array items => '[' :: prettyItems level items ++ newLine level ++ [']']
  | .object [] => ['\x7b', '\x7d']
  | .object members => '\x7b' :: prettyMembers level members ++ newLine level ++ ['\x7d']
  | j => j.tokens.flatMap Token.write

/-- Items, each on a line of its own. -/
def prettyItems (level : Nat) : List Json → List Char
  | [] => []
  | [j] => newLine (level + 1) ++ j.prettyChars (level + 1)
  | j :: js => newLine (level + 1) ++ j.prettyChars (level + 1) ++ ',' :: prettyItems level js

/-- Members, each on a line of its own. -/
def prettyMembers (level : Nat) : List (Text × Json) → List Char
  | [] => []
  | [m] => newLine (level + 1) ++ prettyMember level m
  | m :: ms => newLine (level + 1) ++ prettyMember level m ++ ',' :: prettyMembers level ms

/-- A member after its line break. -/
def prettyMember (level : Nat) : Text × Json → List Char
  | (key, j) => (Token.text key).write ++ ':' :: ' ' :: j.prettyChars (level + 1)

end

/-- The text of a document with one item to a line. -/
def pretty (j : Json) : String := String.ofList (j.prettyChars 0)

end ColumnFlow.Json
