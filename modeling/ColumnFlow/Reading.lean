/-!
# Readings

A rule of a grammar reads the front of a list of tokens and leaves the rest. It carries
the proof that the rest is shorter than a bound, so that rules which call each other
terminate.
-/

namespace ColumnFlow

/-- What a rule has read, and the tokens it leaves: fewer than `bound`. -/
structure Reading (τ α : Type) (bound : Nat) where
  value : α
  rest : List τ
  shorter : rest.length < bound

end ColumnFlow
