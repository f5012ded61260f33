import ColumnFlow.Json.Reader
import ColumnFlow.Json.Writer

/-!
# Codecs

A codec writes the values of a type as JSON and reads them back. Reading is strict about
what a value needs and lenient about what it does not: unknown members are skipped unread.
Documents may nest to a limit. A variant is written as an object with its name under
`type` and its content, if it has one, under `value`; it is also read from the list of the
two. Content that stands in front of its name has to be read ahead, and then every part
of it counts.
-/

namespace ColumnFlow

/-- A written form of the values of a type. A reader is told how many containers may still
be nested in each other and whether the document was read ahead. -/
structure Codec (α : Type) where
  encode : α → Json
  decode? : (room : Nat) → (ahead : Bool) → Json → Option α

namespace Codec

/-- How many containers of a text may be nested in each other. -/
def nestingLimit : Nat := 127

/-- The JSON text of a value. -/
def write {α : Type} (c : Codec α) (x : α) : String := (c.encode x).compact

/-- The value that a JSON text spells. -/
def read? {α : Type} (c : Codec α) (text : String) : Option α :=
  (Json.read? text).bind (c.decode? nestingLimit false)

-- ---------------------------------------------------------------------------
-- Reading parts
-- ---------------------------------------------------------------------------

/-- The double that a document spells. -/
def float? : Json → Option Float
  | .number n => n.toFloat?
  | _ => none

/-- The natural number that a document spells. -/
def natural? : Json → Option Nat
  | .number n => n.toNat?
  | _ => none

/-- The text that a document spells. -/
def string? : Json → Option String
  | .text s => s
  | _ => none

/-- The truth value that a document spells. -/
def bool? : Json → Option Bool
  | .bool b => some b
  | _ => none

/-- The items of a list, each read by `decode?`. -/
def list? {α : Type} (decode? : Json → Option α) : Json → Option (List α)
  | .array items => items.mapM decode?
  | _ => none

/-- The members with one of the given keys. -/
def membersOf (keys : List String) (members : List (Json.Text × Json)) :
    List (Json.Text × Json) :=
  members.filter fun m => m.1.any fun key => decide (key ∈ keys)

/-- What stands under a key that occurs once. -/
def member? (key : String) (members : List (Json.Text × Json)) : Option Json :=
  match membersOf [key] members with
  | [m] => some m.2
  | _ => none

-- ---------------------------------------------------------------------------
-- Names
-- ---------------------------------------------------------------------------

/-- The name of a variant without content: a text, or an object with the name as its only
key and nothing under it. -/
def name? (room : Nat) (ahead : Bool) : Json → Option String
  | .text s => s
  | .object [(key, .null)] => if room = 0 then none else key
  | .object [(key, .object [])] => if room = 0 ∨ !ahead then none else key
  | _ => none

-- ---------------------------------------------------------------------------
-- Variants
-- ---------------------------------------------------------------------------

/-- A variant by its name, with its content and whether that was read ahead. -/
structure Tagged where
  name : String
  content? : Option Json
  ahead : Bool

/-- The variant that a document spells. `room` is what is left inside of it. -/
def tagged? (room : Nat) (ahead : Bool) : Json → Option Tagged
  | .array [name, content] => (name? room ahead name).map fun n => ⟨n, some content, ahead⟩
  | .object members =>
    if members.all fun m => m.1.isSome then
      match membersOf ["type", "value"] members with
      | [(some "type", name)] => (name? room ahead name).map fun n => ⟨n, none, ahead⟩
      | [(some "type", name), (some "value", content)] =>
        (name? room ahead name).map fun n => ⟨n, some content, ahead⟩
      | [(some "value", content), (some "type", name)] =>
        if content.isSound room then
          (name? room ahead name).map fun n => ⟨n, some content, true⟩
        else none
      | _ => none
    else none
  | _ => none

/-- A variant with content. -/
def variant (name : String) (content : Json) : Json :=
  .ofMembers [("type", .ofString name), ("value", content)]

/-- A variant without content. -/
def bareVariant (name : String) : Json := .ofMembers [("type", .ofString name)]

end Codec

end ColumnFlow
