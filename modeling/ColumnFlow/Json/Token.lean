import ColumnFlow.Json

/-!
# JSON tokens

The pieces of a JSON text. `Json.Token.scan` cuts a text into tokens and drops the blanks
between them; `Json.Token.write` goes the other way. A character of a text is written
by itself, by a short escape, or by the hexadecimal digits of a UTF-16 unit.
-/

namespace ColumnFlow.Json

/-- A piece of a JSON text. -/
inductive Token where
  | null
  | bool (b : Bool)
  | number (n : Number)
  | text (s : Text)
  | leftBracket
  | rightBracket
  | leftBrace
  | rightBrace
  | comma
  | colon
deriving DecidableEq

-- ---------------------------------------------------------------------------
-- Texts
-- ---------------------------------------------------------------------------

/-- A character, or a UTF-16 unit written by its digits. -/
inductive Piece where
  | char (c : Char)
  | unit (u : Nat)
deriving DecidableEq

def isHighSurrogate (u : Nat) : Bool := 0xD800 ≤ u && u < 0xDC00

def isLowSurrogate (u : Nat) : Bool := 0xDC00 ≤ u && u < 0xE000

/-- The characters that pieces spell; nothing if a surrogate has no partner. -/
def characters? : List Piece → Option (List Char)
  | [] => some []
  | .char c :: ps => (characters? ps).map (c :: ·)
  | .unit high :: .unit low :: ps =>
    if isHighSurrogate high && isLowSurrogate low then
      let code := 0x10000 + (high - 0xD800) * 0x400 + (low - 0xDC00)
      (characters? ps).map (Char.ofNat code :: ·)
    else if isHighSurrogate high || isLowSurrogate high then none
    else (characters? (.unit low :: ps)).map (Char.ofNat high :: ·)
  | .unit u :: ps =>
    if isHighSurrogate u || isLowSurrogate u then none
    else (characters? ps).map (Char.ofNat u :: ·)

/-- The value of a hexadecimal digit of either case. -/
def hexValue? (c : Char) : Option Nat :=
  if '0' ≤ c ∧ c ≤ '9' then some (c.toNat - '0'.toNat)
  else if 'a' ≤ c ∧ c ≤ 'f' then some (c.toNat - 'a'.toNat + 10)
  else if 'A' ≤ c ∧ c ≤ 'F' then some (c.toNat - 'A'.toNat + 10)
  else none

/-- The character that a short escape stands for. -/
def shortEscape? : Char → Option Char
  | '"' => some '"'
  | '\\' => some '\\'
  | '/' => some '/'
  | 'b' => some '\x08'
  | 'f' => some '\x0c'
  | 'n' => some '\n'
  | 'r' => some '\r'
  | 't' => some '\t'
  | _ => none

/-- The pieces up to the closing quote, and the number of characters read, the quote among
them. Controls have to be escaped. -/
def readPieces : List Char → Option (List Piece × Nat)
  | [] => none
  | '"' :: _ => some ([], 1)
  | '\\' :: 'u' :: a :: b :: c :: d :: cs => do
    let a ← hexValue? a
    let b ← hexValue? b
    let c ← hexValue? c
    let d ← hexValue? d
    let (ps, n) ← readPieces cs
    return (.unit (((a * 16 + b) * 16 + c) * 16 + d) :: ps, n + 6)
  | '\\' :: e :: cs => do
    let c ← shortEscape? e
    let (ps, n) ← readPieces cs
    return (.char c :: ps, n + 2)
  | c :: cs =>
    if c = '\\' ∨ c.toNat < 0x20 then none
    else do
      let (ps, n) ← readPieces cs
      return (.char c :: ps, n + 1)

/-- The escape of a character, for those that need one. -/
def escape? (c : Char) : Option (List Char) :=
  match c with
  | '"' => some ['\\', '"']
  | '\\' => some ['\\', '\\']
  | '\x08' => some ['\\', 'b']
  | '\x0c' => some ['\\', 'f']
  | '\n' => some ['\\', 'n']
  | '\r' => some ['\\', 'r']
  | '\t' => some ['\\', 't']
  | c =>
    if c.toNat < 0x20 then
      some ['\\', 'u', '0', '0', Nat.digitChar (c.toNat / 16), Nat.digitChar (c.toNat % 16)]
    else none

/-- How a character is written between quotes. -/
def writeChar (c : Char) : List Char := (escape? c).getD [c]

/-- A text between quotes. -/
def writeText (s : String) : List Char := '"' :: s.toList.flatMap writeChar ++ ['"']

-- ---------------------------------------------------------------------------
-- Numbers
-- ---------------------------------------------------------------------------

/-- The number of digits at the front. -/
def digitCount (cs : List Char) : Nat := (cs.takeWhile Char.isDigit).length

/-- The length of the whole part: one digit, or several that start with none of zero. -/
def wholeLength : List Char → Nat
  | '0' :: _ => 1
  | cs => digitCount cs

/-- The length of a fraction with its point. A point needs a digit after it. -/
def fractionLength? : List Char → Option Nat
  | '.' :: cs => if digitCount cs = 0 then none else some (digitCount cs + 1)
  | _ => some 0

/-- The length of a sign. -/
def signLength : List Char → Nat
  | '+' :: _ => 1
  | '-' :: _ => 1
  | _ => 0

/-- The length of an exponent with its mark and sign. A mark needs a digit after it. -/
def exponentLength? : List Char → Option Nat
  | c :: cs =>
    if c = 'e' ∨ c = 'E' then
      let sign := signLength cs
      let digits := digitCount (cs.drop sign)
      if digits = 0 then none else some (1 + sign + digits)
    else some 0
  | [] => some 0

/-- The unsigned number at the front of a text, and its length. -/
def readMagnitude (negative : Bool) (cs : List Char) : Option (Number × Nat) := do
  let whole := wholeLength cs
  if whole = 0 then none
  let fraction ← fractionLength? (cs.drop whole)
  let exponent ← exponentLength? (cs.drop (whole + fraction))
  let length := whole + fraction + exponent
  let numeral ← Numeral.read? (cs.take length)
  return (⟨negative, numeral⟩, length)

/-- The characters of a number. -/
def Number.write (n : Number) : List Char :=
  (if n.negative then ['-'] else []) ++ n.numeral.write Layout.json.plusSign

namespace Token

-- ---------------------------------------------------------------------------
-- Writing
-- ---------------------------------------------------------------------------

/-- The characters of a token. A text without characters cannot be written and comes out
empty. -/
def write : Token → List Char
  | .null => ['n', 'u', 'l', 'l']
  | .bool true => ['t', 'r', 'u', 'e']
  | .bool false => ['f', 'a', 'l', 's', 'e']
  | .number n => n.write
  | .text s => writeText (s.getD "")
  | .leftBracket => ['[']
  | .rightBracket => [']']
  | .leftBrace => ['\x7b']
  | .rightBrace => ['\x7d']
  | .comma => [',']
  | .colon => [':']

-- ---------------------------------------------------------------------------
-- Scanning
-- ---------------------------------------------------------------------------

/-- The blanks between tokens. -/
def isBlank (c : Char) : Bool := c = ' ' || c = '\t' || c = '\n' || c = '\r'

/-- The token at the front of `c :: cs`, where `c` is no blank, with the number of
characters after the first one that belong to it. -/
def read (c : Char) (cs : List Char) : Option (Token × Nat) :=
  match c with
  | '[' => some (.leftBracket, 0)
  | ']' => some (.rightBracket, 0)
  | '\x7b' => some (.leftBrace, 0)
  | '\x7d' => some (.rightBrace, 0)
  | ',' => some (.comma, 0)
  | ':' => some (.colon, 0)
  | '"' => (readPieces cs).map fun (ps, n) => (.text ((characters? ps).map String.ofList), n)
  | '-' => (readMagnitude true cs).map fun (x, n) => (.number x, n)
  | 'n' => if cs.take 3 = ['u', 'l', 'l'] then some (.null, 3) else none
  | 't' => if cs.take 3 = ['r', 'u', 'e'] then some (.bool true, 3) else none
  | 'f' => if cs.take 4 = ['a', 'l', 's', 'e'] then some (.bool false, 4) else none
  | c => (readMagnitude false (c :: cs)).map fun (x, n) => (.number x, n - 1)

/-- The tokens of a text. -/
def scan : List Char → Option (List Token)
  | [] => some []
  | c :: cs =>
    if isBlank c then scan cs
    else
      match read c cs with
      | none => none
      | some (token, n) => (scan (cs.drop n)).map (token :: ·)
termination_by cs => cs.length
decreasing_by all_goals simp only [List.length_cons, List.length_drop]; omega

end Token

end ColumnFlow.Json
