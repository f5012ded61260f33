import ColumnFlow.Proofs.Arrays.Shapes
import ColumnFlow.Value

/-!
# The nested list that an array denotes

An array stands for a list of numbers, or a list of lists, to its depth. A leaf is found in it by
an index path: the place of the outer entry, the place within that entry, and so on down to the
place of the number.
-/

namespace ColumnFlow

/-- A number, or a list of entries. -/
inductive Entry where
  | number (x : Float)
  | list (entries : List Entry)

namespace Entry

/-- The entry at an index path. -/
def at? : Entry → List Nat → Option Entry
  | e, [] => some e
  | .number _, _ :: _ => none
  | .list entries, i :: path => entries[i]?.bind fun e => e.at? path

def number? : Entry → Option Float
  | .number x => some x
  | .list _ => none

end Entry

theorem getElem?_cut {α : Type} (counts : List Nat) (xs : List α) (i : Nat) :
    (cut counts xs)[i]? =
      counts[i]?.map fun count => (xs.drop (Jagged.total (counts.take i))).take count := by
  induction counts generalizing xs i with
  | nil => rfl
  | cons count counts ih =>
    cases i with
    | zero => rfl
    | succ i => simp [cut, ih, List.drop_drop]

namespace Jagged

/-- The outer entries of an array. -/
def entries : Jagged → List Entry
  | .flat xs => xs.map .number
  | .nested counts content => (cut counts content.entries).map .list

/-- The leaf at an index path. -/
def leafAt? (a : Jagged) (path : List Nat) : Option Float :=
  ((Entry.list a.entries).at? path).bind Entry.number?

/-- The whole array is no leaf. -/
@[simp] theorem leafAt?_nil (a : Jagged) : a.leafAt? [] = none := rfl

@[simp] theorem leafAt?_flat (xs : List Float) (i : Nat) : (flat xs).leafAt? [i] = xs[i]? := by
  cases hfound : xs[i]? with
  | none => simp [leafAt?, Entry.at?, entries, hfound]
  | some x => simp [leafAt?, Entry.at?, entries, hfound, Entry.number?]

@[simp] theorem leafAt?_flat_cons (xs : List Float) (i j : Nat) (path : List Nat) :
    (flat xs).leafAt? (i :: j :: path) = none := by
  cases hfound : xs[i]? with
  | none => simp [leafAt?, Entry.at?, entries, hfound]
  | some x => simp [leafAt?, Entry.at?, entries, hfound]

@[simp] theorem leafAt?_nested_single (counts : List Nat) (content : Jagged) (i : Nat) :
    (nested counts content).leafAt? [i] = none := by
  cases hfound : counts[i]? with
  | none => simp [leafAt?, Entry.at?, entries, getElem?_cut, hfound]
  | some count => simp [leafAt?, Entry.at?, entries, getElem?_cut, hfound, Entry.number?]

/-- What an entry holds is found in the content, behind what the entries before it hold. -/
theorem leafAt?_nested (counts : List Nat) (content : Jagged) (i j : Nat) (path : List Nat) :
    (nested counts content).leafAt? (i :: j :: path) =
      if j < counts.getD i 0 then content.leafAt? ((total (counts.take i) + j) :: path)
      else none := by
  cases hfound : counts[i]? with
  | none => simp [leafAt?, Entry.at?, entries, getElem?_cut, List.getD, hfound]
  | some count =>
    simp only [leafAt?, Entry.at?, entries, List.getElem?_map, getElem?_cut,
      List.getD_eq_getElem?_getD,
      hfound, Option.map_some, Option.bind_some, Option.getD_some, List.getElem?_take,
      List.getElem?_drop]
    by_cases hinside : j < count
    · rw [if_pos hinside, if_pos hinside]
    · rw [if_neg hinside, if_neg hinside]
      rfl

/-- Each entry of the content is held by an outer entry. -/
theorem exists_outer {counts : List Nat} {n : Nat} (hinside : n < total counts) :
    ∃ i j, i < counts.length ∧ j < counts.getD i 0 ∧ total (counts.take i) + j = n := by
  induction counts generalizing n with
  | nil => cases hinside
  | cons count counts ih =>
    by_cases hfirst : n < count
    · exact ⟨0, n, Nat.succ_pos _, hfirst, Nat.zero_add n⟩
    · rw [total_cons] at hinside
      obtain ⟨i, j, hplace, hbelow, hsame⟩ := ih (n := n - count) (by omega)
      refine ⟨i + 1, j, Nat.succ_lt_succ hplace, hbelow, ?_⟩
      rw [List.take_succ_cons, total_cons]
      omega

/-- Each leaf has an index path, which depends on nothing but the levels. -/
theorem exists_path {a : Jagged} {k : Nat} (hconsistent : a.Consistent)
    (hinside : k < a.leaves.length) :
    ∃ i path, i < a.length ∧ ∀ xs, (a.withLeaves xs).leafAt? (i :: path) = xs[k]? := by
  induction a with
  | flat ys => exact ⟨k, [], hinside, fun xs => leafAt?_flat xs k⟩
  | nested counts content ih =>
    obtain ⟨n, path, hbelow, hfound⟩ := ih hconsistent.2 hinside
    obtain ⟨i, j, hplace, hwithin, rfl⟩ := exists_outer (hconsistent.1.symm ▸ hbelow)
    refine ⟨i, j :: path, hplace, fun xs => ?_⟩
    rw [withLeaves, leafAt?_nested, if_pos hwithin, hfound]

/-- A path to a leaf is one to the same place of all leaves, whatever these are. -/
theorem exists_place {a : Jagged} {path : List Nat} (hfound : (a.leafAt? path).isSome) :
    ∃ k : Nat, ∀ xs, (a.withLeaves xs).leafAt? path = xs[k]? := by
  induction a generalizing path with
  | flat ys =>
    match path, hfound with
    | [i], _ => exact ⟨i, fun xs => leafAt?_flat xs i⟩
    | _ :: _ :: _, hfound => simp at hfound
  | nested counts content ih =>
    match path, hfound with
    | [_], hfound => simp at hfound
    | i :: j :: path, hfound =>
      rw [leafAt?_nested] at hfound
      split at hfound
      · next hinside =>
        obtain ⟨k, hplace⟩ := ih hfound
        exact ⟨k, fun xs => by rw [withLeaves, leafAt?_nested, if_pos hinside, hplace]⟩
      · cases hfound

end Jagged

end ColumnFlow
