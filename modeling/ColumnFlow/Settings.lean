import ColumnFlow.Codec

/-!
# Settings

How a program runs graphs. Settings are read from a JSON object in which every field may be
left out and no other key may occur, or from the list of the first fields in order.
-/

namespace ColumnFlow

structure Settings where
  /-- The number of workers; zero stands for one to each core. -/
  workers : Nat
  /-- Whether progress is kept from view. -/
  quiet : Bool
  /-- Whether a stage without a registry of its own sees the builtin functions. -/
  builtins : Bool
deriving DecidableEq, Repr

/-- Why there are no settings. -/
inductive SettingsError where
  /-- The bytes are no UTF-8 text. -/
  | encoding
  /-- The text is not the JSON of settings. -/
  | malformed
deriving DecidableEq, Repr

namespace Settings

/-- What holds where nothing is set. -/
def standard : Settings := ⟨0, false, true⟩

/-- The fields in order. -/
def keys : List String := ["workers", "quiet", "builtins"]

/-- A field: its standard value if it is left out. -/
def field? {α : Type} (decode? : Json → Option α) (standard : α) : Option Json → Option α
  | none => some standard
  | some j => decode? j

/-- The settings with the given fields. -/
def ofFields? (workers quiet builtins : Option Json) : Option Settings := do
  return {
    workers := ← field? Codec.natural? standard.workers workers
    quiet := ← field? Codec.bool? standard.quiet quiet
    builtins := ← field? Codec.bool? standard.builtins builtins }

/-- Every key is that of a field, and none occurs twice. -/
def keysAllowed (members : List (Json.Text × Json)) : Bool :=
  (members.all fun m => m.1.any fun key => decide (key ∈ keys)) &&
    decide (members.map Prod.fst).Nodup

/-- The settings that a document spells. -/
def ofJson? : Json → Option Settings
  | .array items => if items.length ≤ 3 then ofFields? items[0]? items[1]? items[2]? else none
  | .object members =>
    if keysAllowed members then
      ofFields? (members.lookup (some "workers")) (members.lookup (some "quiet"))
        (members.lookup (some "builtins"))
    else none
  | _ => none

/-- The settings of a JSON text. -/
def parse (text : String) : Except SettingsError Settings :=
  match (Json.read? text).bind ofJson? with
  | some settings => .ok settings
  | none => .error .malformed

/-- The settings of the bytes of a JSON text. -/
def parseBytes (bytes : List UInt8) : Except SettingsError Settings :=
  match String.fromUTF8? (ByteArray.mk bytes.toArray) with
  | some text => parse text
  | none => .error .encoding

end Settings

end ColumnFlow
