import ColumnFlow.Codec
import ColumnFlow.Value

/-!
# The JSON form of values

A flat array is the list of its numbers, a nested one an object of counts and content.
Values are variants named for their kind. Infinities and NaN are written as null, which
no number is read from.
-/

namespace ColumnFlow

namespace Jagged

def toJson : Jagged → Json
  | .flat leaves => .array (leaves.map Json.ofFloat)
  | .nested counts content =>
    .ofMembers [("counts", .array (counts.map Json.ofNat)), ("content", content.toJson)]

/-- The array that a document spells, with at most `room` levels of containers. -/
def ofJsonWithin? : Nat → Json → Option Jagged
  | _, .array items => (items.mapM Codec.float?).map .flat
  | room + 1, .object members => do
    let counts ← Codec.member? "counts" members
    let content ← Codec.member? "content" members
    return .nested (← Codec.list? Codec.natural? counts) (← ofJsonWithin? room content)
  | _, _ => none

/-- The array that a document spells. It is read ahead to see whether it is flat. -/
def ofJson? (room : Nat) (j : Json) : Option Jagged :=
  if j.isSound room then ofJsonWithin? room j else none

end Jagged

namespace Value

mutual

def toJson : Value → Json
  | .scalar x => Codec.variant "scalar" (.ofFloat x)
  | .array a => Codec.variant "array" a.toJson
  | .text s => Codec.variant "text" (.ofString s)
  | .tuple items => Codec.variant "tuple" (.array (toJsonAll items))
  | .nothing => Codec.bareVariant "none"

def toJsonAll : List Value → List Json
  | [] => []
  | v :: vs => v.toJson :: toJsonAll vs

end

/-- The value that a document spells. The items of a tuple are two containers further in. -/
def ofJson? : (room : Nat) → (ahead : Bool) → Json → Option Value
  | 0, _, _ => none
  | room + 1, ahead, j => do
    let variant ← Codec.tagged? room ahead j
    match variant.name, variant.content? with
    | "scalar", some content => (Codec.float? content).map .scalar
    | "array", some content => (Jagged.ofJson? room content).map .array
    | "text", some content => (Codec.string? content).map .text
    | "tuple", some content =>
      match room with
      | 0 => none
      | inner + 1 => (Codec.list? (ofJson? inner variant.ahead) content).map .tuple
    | "none", none => some .nothing
    | "none", some .null => some .nothing
    | _, _ => none

end Value

namespace Codec

def array : Codec Jagged := ⟨Jagged.toJson, fun room _ => Jagged.ofJson? room⟩

def value : Codec Value := ⟨Value.toJson, Value.ofJson?⟩

end Codec

end ColumnFlow
