import ColumnFlow.Decimal.Layout
import ColumnFlow.Decimal.Scaled

/-!
# JSON

JSON documents as trees. Objects keep their members in order, with repetitions. Numbers
are kept as they are spelled. A text may spell a surrogate that has no partner; such a text
is no list of characters and is kept as nothing.
-/

namespace ColumnFlow

namespace Json

/-- A number as written: a sign and a numeral. -/
structure Number where
  negative : Bool
  numeral : Numeral
deriving DecidableEq

namespace Number

/-- The number without its sign. -/
def magnitude (n : Number) : Decimal := n.numeral.value

/-- The double that a number is read as, by scaling its leading digits; nothing for a number
beyond the greatest one. -/
def toFloat? (n : Number) : Option Float :=
  (Scaled.ofNumeral n.numeral).toFloat?.map fun x => if n.negative then -x else x

/-- The natural number of at most 64 bits that was written, without a sign and as a whole. -/
def toNat? (n : Number) : Option Nat :=
  let s := Scaled.ofNumeral n.numeral
  if n.numeral.isWhole && !n.negative && s.exponent == 0 then some s.word else none

/-- A whole number. -/
def ofNat (n : Nat) : Number := ⟨false, .ofNat n⟩

/-- A double by its shortest digits; nothing for infinities and NaN. -/
def ofFloat? (x : Float) : Option Number :=
  (Decimal.shortest? Layout.json.tie x).map fun d => ⟨isNegative x, Layout.json.numeral d⟩

end Number

/-- The characters of a text or a key, if it has no unpaired surrogate. -/
abbrev Text : Type := Option String

end Json

/-- A JSON document. -/
inductive Json where
  | null
  | bool (b : Bool)
  | number (n : Json.Number)
  | text (s : Json.Text)
  | array (items : List Json)
  | object (members : List (Json.Text × Json))

namespace Json

instance : Inhabited Json := ⟨.null⟩

/-- A text given by its characters. -/
def ofString (s : String) : Json := .text (some s)

def ofNat (n : Nat) : Json := .number (.ofNat n)

/-- A double. Infinities and NaN have no form of their own. -/
def ofFloat (x : Float) : Json :=
  match Number.ofFloat? x with
  | some n => .number n
  | none => .null

/-- An object given by its members. -/
def ofMembers (members : List (String × Json)) : Json :=
  .object (members.map fun m => (some m.1, m.2))

mutual

/-- Every number has a double, every text has characters, and at most `room` containers are
nested in each other. -/
def isSound (room : Nat) : Json → Bool
  | .null | .bool _ => true
  | .number n => n.toFloat?.isSome
  | .text s => s.isSome
  | .array items => room != 0 && allSound (room - 1) items
  | .object members => room != 0 && membersSound (room - 1) members

def allSound (room : Nat) : List Json → Bool
  | [] => true
  | j :: js => j.isSound room && allSound room js

def membersSound (room : Nat) : List (Json.Text × Json) → Bool
  | [] => true
  | m :: ms => m.1.isSome && m.2.isSound room && membersSound room ms

end

end Json

end ColumnFlow
