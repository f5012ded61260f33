import ColumnFlow.Codec
import ColumnFlow.Task

/-!
# The JSON form of arguments

Operators are written by name. Literals and arguments are variants, like values.
-/

namespace ColumnFlow

-- ---------------------------------------------------------------------------
-- Operators
-- ---------------------------------------------------------------------------

/-- The name under which a unary operator is written. -/
def UnaryOp.writtenName : UnaryOp → String
  | .neg => "neg"
  | .pos => "pos"
  | .invert => "not"

/-- The binary operator with a function name. -/
def BinaryOp.named? (name : String) : Option BinaryOp :=
  BinaryOp.all.find? fun op => op.functionName == name

/-- The unary operator with a written name. -/
def UnaryOp.named? (name : String) : Option UnaryOp :=
  UnaryOp.all.find? fun op => op.writtenName == name

-- ---------------------------------------------------------------------------
-- Literals
-- ---------------------------------------------------------------------------

namespace Literal

def toJson : Literal → Json
  | .number x => Codec.variant "number" (.ofFloat x)
  | .text s => Codec.variant "text" (.ofString s)
  | .bool b => Codec.variant "bool" (.bool b)

def ofJson? : (room : Nat) → (ahead : Bool) → Json → Option Literal
  | 0, _, _ => none
  | room + 1, ahead, j => do
    let variant ← Codec.tagged? room ahead j
    let content ← variant.content?
    match variant.name with
    | "number" => (Codec.float? content).map .number
    | "text" => (Codec.string? content).map .text
    | "bool" => (Codec.bool? content).map .bool
    | _ => none

end Literal

-- ---------------------------------------------------------------------------
-- Arguments
-- ---------------------------------------------------------------------------

namespace Arg

mutual

def toJson : Arg → Json
  | .ref task => Codec.variant "ref" (.ofString task)
  | .column name => Codec.variant "variable" (.ofString name)
  | .literal value => Codec.variant "literal" value.toJson
  | .absent => Codec.bareVariant "absent"
  | .tuple items => Codec.variant "tuple" (.array (toJsonAll items))

def toJsonAll : List Arg → List Json
  | [] => []
  | a :: as => a.toJson :: toJsonAll as

end

/-- The argument that a document spells. The items of a tuple are two containers further
in. -/
def ofJson? : (room : Nat) → (ahead : Bool) → Json → Option Arg
  | 0, _, _ => none
  | room + 1, ahead, j => do
    let variant ← Codec.tagged? room ahead j
    match variant.name, variant.content? with
    | "ref", some content => (Codec.string? content).map .ref
    | "variable", some content => (Codec.string? content).map .column
    | "literal", some content => (Literal.ofJson? room variant.ahead content).map .literal
    | "tuple", some content =>
      match room with
      | 0 => none
      | inner + 1 => (Codec.list? (ofJson? inner variant.ahead) content).map .tuple
    | "absent", none => some .absent
    | "absent", some .null => some .absent
    | _, _ => none

end Arg

namespace Codec

def literal : Codec Literal := ⟨Literal.toJson, Literal.ofJson?⟩

def argument : Codec Arg := ⟨Arg.toJson, Arg.ofJson?⟩

def binaryOp : Codec BinaryOp :=
  ⟨fun op => .ofString op.functionName,
    fun room ahead j => (name? room ahead j).bind BinaryOp.named?⟩

def unaryOp : Codec UnaryOp :=
  ⟨fun op => .ofString op.writtenName,
    fun room ahead j => (name? room ahead j).bind UnaryOp.named?⟩

end Codec

end ColumnFlow
