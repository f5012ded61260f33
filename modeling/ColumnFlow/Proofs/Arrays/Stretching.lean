import ColumnFlow.Proofs.Arrays.Entries

/-!
# Stretching an array to a deeper one

An array that fits a deeper one is stretched to it by repeating its leaves, level by level from
the outermost inwards. The result has at each leaf of the deeper array what the shallower one has
at the same index path, cut to its own depth. Stretching goes through arrays in between, and it
does not matter whether operators run before or after it.
-/

namespace ColumnFlow

/-! ## Repeating elements -/

section

variable {α β γ : Type}

@[simp] theorem replicateEach_nil (counts : List Nat) : replicateEach ([] : List α) counts = [] :=
  rfl

@[simp] theorem replicateEach_nil_right (xs : List α) : replicateEach xs [] = [] := by
  simp [replicateEach]

@[simp] theorem replicateEach_cons (x : α) (xs : List α) (count : Nat) (counts : List Nat) :
    replicateEach (x :: xs) (count :: counts) =
      List.replicate count x ++ replicateEach xs counts := rfl

/-- Repeating elements makes as many of them as the counts add up to. -/
theorem length_replicateEach {xs : List α} {counts : List Nat}
    (henough : xs.length = counts.length) :
    (replicateEach xs counts).length = Jagged.total counts := by
  induction xs generalizing counts with
  | nil =>
    cases counts with
    | nil => rfl
    | cons count counts => cases henough
  | cons x xs ih =>
    cases counts with
    | nil => cases henough
    | cons count counts => simp [ih (Nat.succ.inj henough)]

/-- Below an entry stands what was repeated for it. -/
theorem getElem?_replicateEach {xs : List α} {counts : List Nat} {i j : Nat}
    (henough : xs.length = counts.length) (hinside : j < counts.getD i 0) :
    (replicateEach xs counts)[Jagged.total (counts.take i) + j]? = xs[i]? := by
  induction xs generalizing counts i with
  | nil =>
    cases counts with
    | nil => simp at hinside
    | cons count counts => cases henough
  | cons x xs ih =>
    cases counts with
    | nil => cases henough
    | cons count counts =>
      cases i with
      | zero =>
        have hinside : j < count := hinside
        simp [List.getElem?_append_left, hinside]
      | succ i =>
        have hinside : j < counts.getD i 0 := hinside
        rw [replicateEach_cons, List.getElem?_append_right, List.take_succ_cons, Jagged.total_cons,
          List.length_replicate, Nat.add_assoc, Nat.add_sub_cancel_left,
          ih (Nat.succ.inj henough) hinside, List.getElem?_cons_succ]
        simp [Nat.add_assoc]

theorem replicateEach_map (f : α → β) (xs : List α) (counts : List Nat) :
    replicateEach (xs.map f) counts = (replicateEach xs counts).map f := by
  induction xs generalizing counts with
  | nil => rfl
  | cons x xs ih =>
    cases counts with
    | nil => simp
    | cons count counts => simp [ih]

/-- Elements may be combined before they are repeated or after. -/
theorem replicateEach_zipWith (f : α → β → γ) {xs : List α} {ys : List β} (counts : List Nat)
    (hsame : xs.length = ys.length) :
    replicateEach (List.zipWith f xs ys) counts =
      List.zipWith f (replicateEach xs counts) (replicateEach ys counts) := by
  induction xs generalizing ys counts with
  | nil => simp
  | cons x xs ih =>
    cases ys with
    | nil => cases hsame
    | cons y ys =>
      cases counts with
      | nil => simp
      | cons count counts =>
        rw [List.zipWith_cons_cons, replicateEach_cons, replicateEach_cons, replicateEach_cons,
          ih counts (Nat.succ.inj hsame), List.zipWith_append (by simp), List.zipWith_replicate']

theorem length_replicateEach_congr {xs : List α} {ys : List β} (counts : List Nat)
    (hsame : xs.length = ys.length) :
    (replicateEach xs counts).length = (replicateEach ys counts).length := by
  induction xs generalizing ys counts with
  | nil =>
    cases ys with
    | nil => rfl
    | cons y ys => cases hsame
  | cons x xs ih =>
    cases ys with
    | nil => cases hsame
    | cons y ys =>
      cases counts with
      | nil => simp
      | cons count counts => simp [ih counts (Nat.succ.inj hsame)]

/-- Each element repeated through levels, from the outermost inwards. -/
def spread (xs : List α) (levels : List (List Nat)) : List α := levels.foldl replicateEach xs

@[simp] theorem spread_nil (xs : List α) : spread xs [] = xs := rfl

@[simp] theorem spread_cons (xs : List α) (counts : List Nat) (levels : List (List Nat)) :
    spread xs (counts :: levels) = spread (replicateEach xs counts) levels := rfl

/-- Elements are spread over the outer levels before they are over the inner ones. -/
theorem spread_append (xs : List α) (outer inner : List (List Nat)) :
    spread xs (outer ++ inner) = spread (spread xs outer) inner :=
  List.foldl_append

theorem spread_map (f : α → β) (xs : List α) (levels : List (List Nat)) :
    spread (xs.map f) levels = (spread xs levels).map f := by
  induction levels generalizing xs with
  | nil => rfl
  | cons counts levels ih => rw [spread_cons, replicateEach_map, ih, spread_cons]

/-- Elements may be combined before they are spread or after. -/
theorem spread_zipWith (f : α → β → γ) {xs : List α} {ys : List β} (levels : List (List Nat))
    (hsame : xs.length = ys.length) :
    spread (List.zipWith f xs ys) levels = List.zipWith f (spread xs levels)
      (spread ys levels) := by
  induction levels generalizing xs ys with
  | nil => rfl
  | cons counts levels ih =>
    rw [spread_cons, replicateEach_zipWith f counts hsame,
      ih (length_replicateEach_congr counts hsame), spread_cons, spread_cons]

end

namespace Jagged

variable {a b c : Jagged} {xs ys : List Float}

/-! ## Through all levels of an array -/

/-- Elements for the outer entries are spread into one for each leaf. -/
theorem length_spread (hconsistent : b.Consistent) (henough : xs.length = b.length) :
    (spread xs b.lengths).length = b.leaves.length := by
  induction b generalizing xs with
  | flat ys => exact henough
  | nested counts content ih =>
    refine ih hconsistent.2 ?_
    rw [length_replicateEach henough]
    exact hconsistent.1

/-- Below an outer entry stands everywhere what was repeated for it. -/
theorem leafAt?_spread {i : Nat} {path : List Nat} (hconsistent : b.Consistent)
    (henough : xs.length = b.length) (hfound : (b.leafAt? (i :: path)).isSome) :
    (b.withLeaves (spread xs b.lengths)).leafAt? (i :: path) = xs[i]? := by
  induction b generalizing xs i path with
  | flat ys =>
    match path, hfound with
    | [], _ => exact leafAt?_flat _ _
    | j :: path, hfound => simp at hfound
  | nested counts content ih =>
    match path, hfound with
    | [], hfound => simp at hfound
    | j :: path, hfound =>
      rw [leafAt?_nested] at hfound
      split at hfound
      · next hinside =>
        have hlength := (length_replicateEach henough).trans hconsistent.1
        rw [withLeaves, leafAt?_nested, if_pos hinside, lengths, spread_cons,
          ih hconsistent.2 hlength hfound, getElem?_replicateEach henough hinside]
      · cases hfound

/-! ## Stretching -/

/-- The leaves of an array, repeated until there is one for each leaf of the deeper array. -/
def stretch (a b : Jagged) : List Float := spread a.leaves (b.lengths.drop a.depth)

theorem stretch_flat : (flat xs).stretch b = spread xs b.lengths := rfl

theorem stretch_nested {counts counts' : List Nat} :
    (nested counts a).stretch (nested counts' b) = a.stretch b := rfl

/-- Nothing is repeated for an array of the same depth. -/
theorem stretch_eq_leaves (hle : b.depth ≤ a.depth) : a.stretch b = a.leaves := by
  rw [stretch, List.drop_eq_nil_of_le (by rwa [length_lengths]), spread_nil]

/-- Stretching looks only at the lengths of the deeper array. -/
theorem stretch_congr (hsame : b.lengths = c.lengths) : a.stretch b = a.stretch c := by
  rw [stretch, stretch, hsame]

/-- A stretched array has a leaf for each leaf of the deeper one. -/
theorem length_stretch (hconsistent : b.Consistent) (hfits : a.Fits b) :
    (a.stretch b).length = b.leaves.length := by
  induction a generalizing b with
  | flat xs => exact length_spread hconsistent (fits_flat.1 hfits)
  | nested counts content ih =>
    cases b with
    | flat ys => exact absurd hfits not_fits_nested_flat
    | nested counts' content' => exact ih hconsistent.2 (fits_nested.1 hfits).2

/-- A stretched array has at a leaf of the deeper one its own leaf at the same path, cut to its
depth. -/
theorem leafAt?_stretch {path : List Nat} (hconsistent : b.Consistent) (hfits : a.Fits b)
    (hfound : (b.leafAt? path).isSome) :
    (b.withLeaves (a.stretch b)).leafAt? path = a.leafAt? (path.take (a.depth + 1)) := by
  induction a generalizing b path with
  | flat xs =>
    cases path with
    | nil => cases hfound
    | cons i path =>
      rw [stretch_flat, leafAt?_spread hconsistent (fits_flat.1 hfits) hfound]
      exact (leafAt?_flat xs i).symm
  | nested counts content ih =>
    cases b with
    | flat ys => exact absurd hfits not_fits_nested_flat
    | nested counts' content' =>
      obtain ⟨rfl, hbelow⟩ := fits_nested.1 hfits
      match path, hfound with
      | [i], hfound => simp at hfound
      | i :: j :: path, hfound =>
        rw [leafAt?_nested] at hfound
        split at hfound
        · next hinside =>
          have hinner := ih hconsistent.2 hbelow hfound
          rw [stretch_nested, withLeaves, leafAt?_nested, if_pos hinside, hinner]
          rw [depth, List.take_succ_cons, List.take_succ_cons, List.take_succ_cons,
            leafAt?_nested, if_pos hinside]
        · cases hfound

/-- As many other leaves are at the same index paths. -/
theorem isSome_leafAt?_withLeaves {path : List Nat} (henough : xs.length = b.leaves.length) :
    ((b.withLeaves xs).leafAt? path).isSome = (b.leafAt? path).isSome := by
  induction b generalizing path with
  | flat ys =>
    match path with
    | [] => rfl
    | [i] =>
      have henough : xs.length = ys.length := henough
      rw [withLeaves, leafAt?_flat, leafAt?_flat, Bool.eq_iff_iff]
      simp [henough]
    | i :: j :: path => simp [withLeaves]
  | nested counts content ih =>
    match path with
    | [] => rfl
    | [i] => simp [withLeaves]
    | i :: j :: path =>
      rw [withLeaves, leafAt?_nested, leafAt?_nested]
      split
      · exact ih henough
      · rfl

/-- Arrays of the same shape have leaves at the same paths. -/
theorem SameShape.isSome_leafAt? {path : List Nat} (h : a.SameShape b) :
    (a.leafAt? path).isSome = (b.leafAt? path).isSome := by
  rw [← withLeaves_leaves a, withLeaves_congr h.lengths, isSome_leafAt?_withLeaves h.leaves]

/-! ## Stretching in steps -/

/-- Stretching to a deeper array goes through every array in between. -/
theorem stretch_trans (hfits : a.Fits b) (hfits' : b.Fits c) :
    (b.withLeaves (a.stretch b)).stretch c = a.stretch c := by
  obtain ⟨deeper, heq⟩ := hfits'.levels
  have hle : a.depth ≤ b.lengths.length := by
    rw [length_lengths]
    exact hfits.depth_le
  have hrest : c.lengths.drop b.depth = deeper := by
    rw [← heq, ← length_lengths, List.drop_left]
  rw [stretch, leaves_withLeaves, depth_withLeaves, hrest, stretch, ← spread_append, stretch, ← heq,
    List.drop_append_of_le_length hle]

theorem stretch_map (f : Float → Float) (xs : List Float) :
    (b.withLeaves (xs.map f)).stretch c = ((b.withLeaves xs).stretch c).map f := by
  simp only [stretch, leaves_withLeaves, depth_withLeaves, spread_map]

/-- Operators may be applied before arrays are stretched or after. -/
theorem stretch_zipWith (f : Float → Float → Float) (hsame : xs.length = ys.length) :
    (b.withLeaves (List.zipWith f xs ys)).stretch c =
      List.zipWith f ((b.withLeaves xs).stretch c) ((b.withLeaves ys).stretch c) := by
  simp only [stretch, leaves_withLeaves, depth_withLeaves, spread_zipWith f _ hsame]

end Jagged

end ColumnFlow
