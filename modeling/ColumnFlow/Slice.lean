import ColumnFlow.Failure

/-!
# Slices

Positions selected on the outer axis of an array. Bounds count from the end when they
are negative and are clamped to the array; a step below zero goes backwards. Bounds are
whole numbers, and a bound beyond the range of 64-bit integers stands at its end.
-/

namespace ColumnFlow

/-- A slice with its parts as whole numbers. -/
structure Slice where
  lower : Option Int
  upper : Option Int
  step : Option Int
deriving DecidableEq, Repr

/-- A bound or step: left out, or a whole number. -/
def Value.wholePart (v : Value) : Answer (Option Int) :=
  match v with
  | .nothing => .ok none
  | .scalar x =>
    match wholeNumber? x with
    | some n => .ok (some (Int64Range.saturate n))
    | none => .refuse (.notWhole v)
  | v => .refuse (.notWhole v)

namespace Slice

/-- A bound counted from the end if it is negative, clamped to `low` and `high`. -/
def resolve (length low high bound : Int) : Except Fault Int := do
  let bound ← if bound < 0 then Int64Range.add bound length else pure bound
  Int64Range.clamp bound low high

/-- The positions from `i` up to but not including `stop`. -/
def ascending (stop step : Int) (hpositive : 0 < step) (i : Int) : List Nat :=
  if i < stop then
    match _h : Int64Range.add? i step with
    | some next => i.toNat :: ascending stop step hpositive next
    | none => [i.toNat]
  else []
termination_by (stop - i).toNat
decreasing_by
  simp only [Int64Range.add?] at _h
  split at _h <;> simp at _h
  omega

/-- The positions from `i` down to but not including `stop`. -/
def descending (stop step : Int) (hnegative : step < 0) (i : Int) : List Nat :=
  if stop < i then
    match _h : Int64Range.add? i step with
    | some next => i.toNat :: descending stop step hnegative next
    | none => [i.toNat]
  else []
termination_by (i - stop).toNat
decreasing_by
  simp only [Int64Range.add?] at _h
  split at _h <;> simp at _h
  omega

/-- The positions that a slice selects among `length` entries. -/
def positions (s : Slice) (length : Nat) : Answer (List Nat) :=
  let length : Int := length
  let step := s.step.getD 1
  if hup : 0 < step then .ofFaulty do
    let start ← (s.lower.map (resolve length 0 length)).getD (pure 0)
    let stop ← (s.upper.map (resolve length 0 length)).getD (pure length)
    return ascending stop step hup start
  else if hdown : step < 0 then .ofFaulty do
    let start ← (s.lower.map (resolve length (-1) (length - 1))).getD (pure (length - 1))
    let stop ← (s.upper.map (resolve length (-1) (length - 1))).getD (pure (-1))
    return descending stop step hdown start
  else .refuse .zeroStep

end Slice

/-- The entries that a slice selects. -/
def Jagged.slice (a : Jagged) (s : Slice) : Answer Value := do
  let positions ← s.positions a.length
  return .array (← .ofFaulty (a.take positions))

/-- The entry at a position, counted from the end if it is negative. -/
def Jagged.at (a : Jagged) (i : Int) : Answer Value := do
  let length : Int := a.length
  let position ← if i < 0 then .ofFaulty (Int64Range.add i length) else pure i
  if position < 0 ∨ length ≤ position then .refuse (.indexOutOfRange i a.length)
  else
    match ← .ofFaulty (a.entry? position.toNat) with
    | some v => return v
    | none => .refuse (.indexOutOfRange i a.length)

/-- What a subscript selects: the triple of a slice, or a position. -/
def Jagged.select (a : Jagged) (subscript : Value) : Answer Value :=
  match subscript with
  | .tuple [lower, upper, step] => do
    let lower ← lower.wholePart
    let upper ← upper.wholePart
    let step ← step.wholePart
    a.slice ⟨lower, upper, step⟩
  | .scalar _ => do
    match ← subscript.wholePart with
    | some i => a.at i
    | none => .refuse (.notSubscript subscript)
  | v => .refuse (.notSubscript v)

end ColumnFlow
