import ColumnFlow.Failure
import ColumnFlow.Table

/-!
# Functions and registries

A registry binds names to functions. Every registration gets a stamp of its own, so that
two functions can be told apart even when they share a name.
-/

namespace ColumnFlow

/-- A function, the name it was registered under and the stamp of the registration. -/
structure Function where
  name : String
  stamp : Nat
  apply : List Value → Answer Value

/-- Whether two functions come from the same registration. -/
def Function.same (f g : Function) : Bool := f.name == g.name && f.stamp == g.stamp

def Function.display (f : Function) : String := "RegisteredFunction(" ++ quote f.name ++ ")"

inductive RegistryError where
  | duplicate (name : String)
  | unknown (name : String)
deriving DecidableEq

def RegistryError.message : RegistryError → String
  | .duplicate name => s!"Function '{name}' already registered"
  | .unknown name => s!"Function '{name}' not registered"

/-- Functions by name, and the number of registrations so far. -/
structure Registry where
  functions : Table Function
  issued : Nat

namespace Registry

def empty : Registry := ⟨.empty, 0⟩

def get? (r : Registry) (name : String) : Option Function := r.functions.get? name

def contains (r : Registry) (name : String) : Bool := r.functions.contains name

/-- Register a function under a name that is not taken. -/
def register (r : Registry) (name : String) (apply : List Value → Answer Value) :
    Except RegistryError Registry :=
  if r.contains name then .error (.duplicate name)
  else .ok ⟨r.functions.insert name ⟨name, r.issued, apply⟩, r.issued + 1⟩

/-- Take a function out of the registry. -/
def unregister (r : Registry) (name : String) : Except RegistryError (Function × Registry) :=
  match r.get? name with
  | some f => .ok (f, { r with functions := r.functions.erase name })
  | none => .error (.unknown name)

/-- Register a function unless its name is taken. -/
def install (r : Registry) (name : String) (apply : List Value → Answer Value) : Registry :=
  match r.register name apply with
  | .ok r' => r'
  | .error _ => r

/-- The registered names in alphabetical order. -/
def names (r : Registry) : List String := r.functions.keys.mergeSort fun a b => decide (a ≤ b)

def display (r : Registry) : String := bracket "\x7b" "\x7d" (r.names.map quote)

end Registry

end ColumnFlow
