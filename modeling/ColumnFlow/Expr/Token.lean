import ColumnFlow.Decimal.Layout
import ColumnFlow.Text.Quoted

/-!
# Tokens

`Token.scan` cuts the text of an expression into tokens, each with the byte offset at
which it starts and the characters it was read from. Blanks separate tokens and are
skipped. `SyntaxError` names every way in which a text fails to be an expression.
-/

namespace ColumnFlow

/-- Operators and punctuation. -/
inductive Mark where
  | plus | minus | star | starStar | slash | slashSlash | percent
  | amp | pipe | caret | tilde
  | leftParen | rightParen | leftBracket | rightBracket
  | comma | colon | dot
  | eq | ne | lt | le | gt | ge
  /-- A lone `=`, which no expression holds. -/
  | assign
  /-- A `;`, which no expression holds. -/
  | semicolon
deriving DecidableEq, Repr

/-- The name of a mark in messages. -/
def Mark.label : Mark → String
  | .plus => "Plus"
  | .minus => "Minus"
  | .star => "Star"
  | .starStar => "StarStar"
  | .slash => "Slash"
  | .slashSlash => "SlashSlash"
  | .percent => "Percent"
  | .amp => "Amp"
  | .pipe => "Pipe"
  | .caret => "Caret"
  | .tilde => "Tilde"
  | .leftParen => "LParen"
  | .rightParen => "RParen"
  | .leftBracket => "LBracket"
  | .rightBracket => "RBracket"
  | .comma => "Comma"
  | .colon => "Colon"
  | .dot => "Dot"
  | .eq => "Eq"
  | .ne => "Ne"
  | .lt => "Lt"
  | .le => "Le"
  | .gt => "Gt"
  | .ge => "Ge"
  | .assign => "Assign"
  | .semicolon => "Semicolon"

inductive Token where
  | number (x : Float)
  | text (s : String)
  | name (s : String)
  | mark (m : Mark)
deriving DecidableEq

/-- The form of a token in messages. -/
def Token.display : Token → String
  | .number x => "Num(" ++ Layout.tagged.writeFloat x ++ ")"
  | .text s => "Str(" ++ quote s ++ ")"
  | .name s => "Ident(" ++ quote s ++ ")"
  | .mark m => m.label

-- ---------------------------------------------------------------------------
-- Errors
-- ---------------------------------------------------------------------------

/-- Why a text is not an expression. -/
inductive Reason where
  | emptyExpression
  | invalidNumber (text : String)
  | unterminatedText
  | unexpectedCharacter (c : Char)
  | unexpectedToken (token : Token)
  | unexpectedEnd
  | expected (mark : Mark) (got : Option Token)
  | chainedComparison
  | emptySubscript
  | expectedName
  | unsupportedKeyword (word : String)
  | assignment
  | severalExpressions
deriving DecidableEq

def Reason.message : Reason → String
  | .emptyExpression => "empty expression"
  | .invalidNumber text => s!"invalid number '{text}'"
  | .unterminatedText => "unterminated string literal"
  | .unexpectedCharacter c => s!"unexpected character '{c}'"
  | .unexpectedToken token => "unexpected token " ++ token.display
  | .unexpectedEnd => "unexpected end of input"
  | .expected mark got =>
    let found := match got with
      | some token => token.display
      | none => "end of input"
    s!"expected {mark.label}, got {found}"
  | .chainedComparison => "chained comparisons are not supported"
  | .emptySubscript => "empty subscript"
  | .expectedName => "expected a name after '.'"
  | .unsupportedKeyword word => s!"keyword '{word}' is not supported, use & | ~ instead"
  | .assignment => "assignment is not allowed in an expression"
  | .severalExpressions => "only a single expression is allowed"

/-- A refusal, with the byte offset it points at. -/
structure SyntaxError where
  offset : Nat
  reason : Reason
deriving DecidableEq

def SyntaxError.message (e : SyntaxError) : String :=
  s!"Syntax error at offset {e.offset}: {e.reason.message}"

-- ---------------------------------------------------------------------------
-- Classes of characters
-- ---------------------------------------------------------------------------

/-- The blanks between tokens: ASCII whitespace without the vertical tab. -/
def isBlank (c : Char) : Bool :=
  c = ' ' || c = '\t' || c = '\n' || c = '\x0c' || c = '\r'

/-- The characters a name starts with. -/
def isNameStart (c : Char) : Bool := c.isAlpha || c = '_'

/-- The characters a name goes on with. -/
def isNamePart (c : Char) : Bool := c.isAlphanum || c = '_'

def isExponentMark (c : Char) : Bool := c = 'e' || c = 'E'

/-- The characters a number goes on with; a sign only directly after the exponent mark. -/
def isNumberPart (previous c : Char) : Bool :=
  c.isDigit || c = '.' || isExponentMark c || ((c = '+' || c = '-') && isExponentMark previous)

/-- Marks of two characters. -/
def doubleMark? : Char → Char → Option Mark
  | '*', '*' => some .starStar
  | '/', '/' => some .slashSlash
  | '=', '=' => some .eq
  | '!', '=' => some .ne
  | '<', '=' => some .le
  | '>', '=' => some .ge
  | _, _ => none

/-- Marks of one character, the point apart. -/
def singleMark? : Char → Option Mark
  | '+' => some .plus
  | '-' => some .minus
  | '*' => some .star
  | '/' => some .slash
  | '%' => some .percent
  | '&' => some .amp
  | '|' => some .pipe
  | '^' => some .caret
  | '~' => some .tilde
  | '(' => some .leftParen
  | ')' => some .rightParen
  | '[' => some .leftBracket
  | ']' => some .rightBracket
  | ',' => some .comma
  | ':' => some .colon
  | '<' => some .lt
  | '>' => some .gt
  | '=' => some .assign
  | ';' => some .semicolon
  | _ => none

-- ---------------------------------------------------------------------------
-- Scanning
-- ---------------------------------------------------------------------------

/-- The number of characters with which a number goes on. -/
def numberLength (previous : Char) : List Char → Nat
  | [] => 0
  | c :: cs => if isNumberPart previous c then numberLength c cs + 1 else 0

/-- Whether a point is followed by a digit and so starts a number. -/
def startsFraction : List Char → Bool
  | c :: _ => c.isDigit
  | [] => false

/-- The mark at the front, with the number of characters after its first one. -/
def leadingMark? (c : Char) (cs : List Char) : Option (Mark × Nat) :=
  match cs.head?.bind (doubleMark? c) with
  | some m => some (m, 1)
  | none =>
    if c = '.' then if startsFraction cs then none else some (.dot, 0)
    else (singleMark? c).map fun m => (m, 0)

/-- The token at the front of `c :: cs`, where `c` is no blank, with the number of
characters after the first one that belong to it. -/
def Token.read (c : Char) (cs : List Char) : Except Reason (Token × Nat) :=
  match leadingMark? c cs with
  | some (m, n) => .ok (.mark m, n)
  | none =>
    if c.isDigit || c = '.' then
      let n := numberLength c cs
      match Numeral.read? (c :: cs.take n) with
      | some x => .ok (.number x.value.toFloat, n)
      | none => .error (.invalidNumber (String.ofList (c :: cs.take n)))
    else if c = '\'' || c = '"' then
      let inside := cs.takeWhile (· ≠ c)
      if inside.length = cs.length then .error .unterminatedText
      else .ok (.text (String.ofList inside), inside.length + 1)
    else if isNameStart c then
      let n := (cs.takeWhile isNamePart).length
      .ok (.name (String.ofList (c :: cs.take n)), n)
    else .error (.unexpectedCharacter c)

/-- The length of a text in bytes. -/
def byteLength : List Char → Nat
  | [] => 0
  | c :: cs => c.utf8Size + byteLength cs

/-- A token, the byte offset at which it starts and the characters it was read from. -/
structure Lexeme where
  token : Token
  offset : Nat
  source : List Char

/-- The tokens of a text that starts at `offset`. -/
def Token.scan (offset : Nat) : List Char → Except SyntaxError (List Lexeme)
  | [] => .ok []
  | c :: cs =>
    if isBlank c then Token.scan (offset + 1) cs
    else
      match Token.read c cs with
      | .error reason => .error ⟨offset, reason⟩
      | .ok (token, n) =>
        let source := c :: cs.take n
        match Token.scan (offset + byteLength source) (cs.drop n) with
        | .error e => .error e
        | .ok lexemes => .ok (⟨token, offset, source⟩ :: lexemes)
termination_by cs => cs.length
decreasing_by all_goals simp only [List.length_cons, List.length_drop]; omega

end ColumnFlow
