import ColumnFlow.Decimal.Layout
import ColumnFlow.Jagged
import ColumnFlow.Text.Quoted

/-!
# Values

What a task produces: a number, a jagged array, a text, a tuple, or nothing. A value is
shown with numbers in the plain layout, except that numbers inside arrays keep their
point.
-/

namespace ColumnFlow

/-- The result of a task. -/
inductive Value where
  | scalar (x : Float)
  | array (a : Jagged)
  | text (s : String)
  | tuple (items : List Value)
  | nothing

instance : Inhabited Value := ⟨.nothing⟩

/-- The kinds of values. -/
inductive Kind where
  | scalar
  | array
  | text
  | tuple
  | nothing
deriving DecidableEq, Repr

def Kind.name : Kind → String
  | .scalar => "scalar"
  | .array => "array"
  | .text => "text"
  | .tuple => "tuple"
  | .nothing => "none"

namespace Value

def kind : Value → Kind
  | .scalar _ => .scalar
  | .array _ => .array
  | .text _ => .text
  | .tuple _ => .tuple
  | .nothing => .nothing

def asScalar? : Value → Option Float
  | .scalar x => some x
  | _ => none

def asArray? : Value → Option Jagged
  | .array a => some a
  | _ => none

end Value

-- ---------------------------------------------------------------------------
-- Equality
-- ---------------------------------------------------------------------------

mutual

/-- Whether two values are the same, with numbers compared as doubles. -/
def Value.beq : Value → Value → Bool
  | .scalar x, .scalar y => x == y
  | .array a, .array b => a == b
  | .text s, .text t => s == t
  | .tuple vs, .tuple ws => Value.beqAll vs ws
  | .nothing, .nothing => true
  | _, _ => false

def Value.beqAll : List Value → List Value → Bool
  | [], [] => true
  | v :: vs, w :: ws => v.beq w && Value.beqAll vs ws
  | _, _ => false

end

instance : BEq Value := ⟨Value.beq⟩

-- ---------------------------------------------------------------------------
-- Entries
-- ---------------------------------------------------------------------------

/-- The outer entry at `i`: a number of a flat array, an array of a nested one. -/
def Jagged.entry? (a : Jagged) (i : Nat) : Except Fault (Option Value) :=
  if i < a.length then
    match a with
    | .flat xs => (elementAt xs i).map fun x => some (.scalar x)
    | .nested counts content => do
      let places ← entryPlaces counts i
      return some (.array (← content.take places))
  else .ok none

-- ---------------------------------------------------------------------------
-- Showing
-- ---------------------------------------------------------------------------

/-- Cut a list into pieces of the given lengths. -/
def cut {α : Type} : List Nat → List α → List (List α)
  | [], _ => []
  | n :: ns, xs => xs.take n :: cut ns (xs.drop n)

/-- Texts in a row, separated by commas, between two brackets. -/
def bracket (opening closing : String) (texts : List String) : String :=
  opening ++ ", ".intercalate texts ++ closing

/-- The texts of the outer entries. -/
def Jagged.entryTexts : Jagged → List String
  | .flat xs => xs.map Layout.tagged.writeFloat
  | .nested counts content => (cut counts content.entryTexts).map (bracket "[" "]")

def Jagged.display (a : Jagged) : String := bracket "[" "]" a.entryTexts

mutual

/-- The text of a value. -/
def Value.display : Value → String
  | .scalar x => Layout.plain.writeFloat x
  | .array a => a.display
  | .text s => quote s
  | .tuple items => bracket "(" ")" (Value.displayAll items)
  | .nothing => "None"

def Value.displayAll : List Value → List String
  | [] => []
  | v :: vs => v.display :: Value.displayAll vs

end

end ColumnFlow
