import ColumnFlow.Text.Hidden

/-!
# Quoted texts

`quote` writes a text between double quotes so that every character shows: the quote,
the backslash and the common controls have escapes of their own, other hidden
characters are written by code point.
-/

namespace ColumnFlow

/-- The lower-case hexadecimal digits of `n`. -/
def hexDigits (n : Nat) : List Char := Nat.toDigits 16 n

/-- How a character is written between quotes. -/
def quoteChar (c : Char) : List Char :=
  if c = '"' then ['\\', '"']
  else if c = '\\' then ['\\', '\\']
  else if c = '\n' then ['\\', 'n']
  else if c = '\r' then ['\\', 'r']
  else if c = '\t' then ['\\', 't']
  else if c = '\x00' then ['\\', '0']
  else if isHidden c then ['\\', 'u', '\x7b'] ++ hexDigits c.toNat ++ ['\x7d']
  else [c]

/-- The text between double quotes. -/
def quote (s : String) : String :=
  String.ofList ('"' :: s.toList.flatMap quoteChar ++ ['"'])

/-- Whether a character is written as itself between quotes. -/
def isPlain (c : Char) : Bool := quoteChar c == [c]

end ColumnFlow
