import ColumnFlow.Jagged.Broadcast
import ColumnFlow.Proofs.Except

/-!
# Shapes of jagged arrays

The shape of an array is the lengths of its entries, level by level, and the number of its
leaves. A shallower array fits a deeper one if it has the outermost levels of it and a leaf for
each of its entries at that depth. Fitting is an order, and arrays that fit the same array fit
each other.
-/

namespace ColumnFlow

/-! ## Adding lengths -/

namespace Overflow

variable {overflow : Overflow} {limit start s : Nat} {counts : List Nat}

/-- A build that faults adds lengths up as long as every sum is a word. -/
theorem foldlM_faults (hstart : start < limit) :
    counts.foldlM (Overflow.faults.add limit) start =
      if start + Jagged.total counts < limit then .ok (start + Jagged.total counts)
      else .error .overflow := by
  induction counts generalizing start with
  | nil => exact (if_pos hstart).symm
  | cons n ns ih =>
    rw [List.foldlM_cons, Jagged.total_cons, ← Nat.add_assoc]
    by_cases hword : start + n < limit
    · rw [add, if_pos hword, ok_bind, ih hword]
    · have hover : ¬ start + n + Jagged.total ns < limit :=
        fun hlt => hword (Nat.lt_of_le_of_lt (Nat.le_add_right _ _) hlt)
      rw [add, if_neg hword, if_neg hover]
      rfl

/-- A build that drops carries adds lengths up modulo the number of words. -/
theorem foldlM_wraps (hstart : start < limit) :
    counts.foldlM (Overflow.wraps.add limit) start =
      .ok ((start + Jagged.total counts) % limit) := by
  induction counts generalizing start with
  | nil => exact congrArg Except.ok (Nat.mod_eq_of_lt hstart).symm
  | cons n ns ih =>
    have hadd : Overflow.wraps.add limit start n = .ok ((start + n) % limit) := by
      unfold add
      split
      · next hword => rw [Nat.mod_eq_of_lt hword]
      · rfl
    have hword : (start + n) % limit < limit := Nat.mod_lt _ (Nat.zero_lt_of_lt hstart)
    rw [List.foldlM_cons, hadd, ok_bind, ih hword, Nat.mod_add_mod, Jagged.total_cons,
      Nat.add_assoc]

/-- A checked sum is the exact one if it fits, and faults if not. -/
theorem sum_faults (hlimit : 0 < limit) : Overflow.faults.sum limit counts =
    if Jagged.total counts < limit then .ok (Jagged.total counts) else .error .overflow := by
  rw [sum, foldlM_faults hlimit, Nat.zero_add]

/-- A wrapping sum is the exact one modulo the limit. -/
theorem sum_wraps (hlimit : 0 < limit) :
    Overflow.wraps.sum limit counts = .ok (Jagged.total counts % limit) := by
  rw [sum, foldlM_wraps hlimit, Nat.zero_add]

/-- A sum that is a word is found whatever the build does about others. -/
theorem sum_eq_ok (hword : Jagged.total counts < limit) :
    overflow.sum limit counts = .ok (Jagged.total counts) := by
  have hlimit : 0 < limit := Nat.zero_lt_of_lt hword
  cases overflow with
  | faults => rw [sum_faults hlimit, if_pos hword]
  | wraps => rw [sum_wraps hlimit, Nat.mod_eq_of_lt hword]

/-- What is found is a word. -/
theorem lt_of_sum (hlimit : 0 < limit) (hsum : overflow.sum limit counts = .ok s) : s < limit := by
  cases overflow with
  | faults =>
    rw [sum_faults hlimit] at hsum
    split at hsum
    · cases hsum
      assumption
    · cases hsum
  | wraps =>
    rw [sum_wraps hlimit] at hsum
    cases hsum
    exact Nat.mod_lt _ hlimit

end Overflow

namespace Jagged

/-- Enough words count the elements of a list. -/
theorem lt_wordsFor (n : Nat) : n < wordsFor n := Nat.le_max_right _ _

/-- A level whose lengths add up is put on. -/
theorem fromCounts_eq_ok {overflow : Overflow} {counts : List Nat} {content : Jagged}
    (htotal : total counts = content.length) :
    fromCounts overflow counts content = .ok (.nested counts content) := by
  have hword : total counts < wordsFor content.length := htotal ▸ lt_wordsFor _
  rw [fromCounts, Overflow.sum_eq_ok hword]
  exact if_pos htotal

/-! ## Levels -/

/-- The lengths of the entries at every level, outermost level first. -/
def lengths : Jagged → List (List Nat)
  | .flat _ => []
  | .nested counts content => counts :: content.lengths

/-- The number of entries at a depth: the outer ones at depth zero, the leaves at the depth of
the array. -/
def width : Jagged → Nat → Nat
  | a, 0 => a.length
  | .flat _, _ + 1 => 0
  | .nested _ content, d + 1 => content.width d

/-- The array of the same levels with other leaves. -/
def withLeaves : Jagged → List Float → Jagged
  | .flat _, xs => .flat xs
  | .nested counts content, xs => .nested counts (content.withLeaves xs)

variable {a b c : Jagged} {xs : List Float}

/-- An array has as many levels of lengths as it is deep. -/
@[simp] theorem length_lengths (a : Jagged) : a.lengths.length = a.depth := by
  induction a with
  | flat xs => rfl
  | nested counts content ih => simp [lengths, depth, ih]

@[simp] theorem width_zero (a : Jagged) : a.width 0 = a.length := by
  cases a <;> rfl

/-- The number of entries at the depth of the leaves is that of the leaves. -/
theorem width_depth (a : Jagged) : a.width a.depth = a.leaves.length := by
  induction a with
  | flat xs => rfl
  | nested counts content ih => exact ih

/-- Above the leaves, the entries at a depth are those whose lengths the level gives. -/
theorem getElem?_lengths {d : Nat} (habove : d < a.depth) :
    (a.lengths[d]?).map List.length = some (a.width d) := by
  induction a generalizing d with
  | flat xs => exact absurd habove (Nat.not_lt_zero _)
  | nested counts content ih =>
    cases d with
    | zero => rfl
    | succ d => exact ih (Nat.lt_of_succ_lt_succ habove)

/-! ## Other leaves -/

@[simp] theorem lengths_withLeaves (a : Jagged) (xs : List Float) :
    (a.withLeaves xs).lengths = a.lengths := by
  induction a with
  | flat ys => rfl
  | nested counts content ih => simp [withLeaves, lengths, ih]

/-- Other leaves are the leaves. -/
@[simp] theorem leaves_withLeaves (a : Jagged) (xs : List Float) :
    (a.withLeaves xs).leaves = xs := by
  induction a with
  | flat ys => rfl
  | nested counts content ih => exact ih

@[simp] theorem depth_withLeaves (a : Jagged) (xs : List Float) :
    (a.withLeaves xs).depth = a.depth := by
  rw [← length_lengths, lengths_withLeaves, length_lengths]

/-- An array with its own leaves is the same array. -/
@[simp] theorem withLeaves_leaves (a : Jagged) : a.withLeaves a.leaves = a := by
  induction a with
  | flat ys => rfl
  | nested counts content ih => simp [withLeaves, leaves, ih]

theorem map_withLeaves (f : Float → Float) (a : Jagged) (xs : List Float) :
    (a.withLeaves xs).map f = a.withLeaves (xs.map f) := by
  induction a with
  | flat ys => rfl
  | nested counts content ih => simp [withLeaves, map, ih]

/-- An array is its levels and its leaves. -/
theorem withLeaves_congr (hsame : a.lengths = b.lengths) (xs : List Float) :
    a.withLeaves xs = b.withLeaves xs := by
  induction a generalizing b with
  | flat ys =>
    cases b with
    | flat zs => rfl
    | nested counts content => cases hsame
  | nested counts content ih =>
    cases b with
    | flat zs => cases hsame
    | nested counts' content' =>
      obtain ⟨rfl, hinner⟩ := List.cons.inj hsame
      simp [withLeaves, ih hinner]

/-- As many other leaves leave every level as wide as it is. -/
theorem width_withLeaves (henough : xs.length = a.leaves.length) (d : Nat) :
    (a.withLeaves xs).width d = a.width d := by
  induction a generalizing d with
  | flat ys =>
    cases d with
    | zero => exact henough
    | succ d => rfl
  | nested counts content ih =>
    cases d with
    | zero => rfl
    | succ d => exact ih henough d

theorem length_withLeaves (henough : xs.length = a.leaves.length) :
    (a.withLeaves xs).length = a.length := by
  rw [← width_zero, width_withLeaves henough, width_zero]

/-- As many other leaves leave an array as consistent as it is. -/
theorem consistent_withLeaves (henough : xs.length = a.leaves.length) :
    (a.withLeaves xs).Consistent ↔ a.Consistent := by
  induction a with
  | flat ys => exact Iff.rfl
  | nested counts content ih =>
    have hlength : (content.withLeaves xs).length = content.length := length_withLeaves henough
    rw [withLeaves, Consistent, Consistent, ih henough, hlength]

/-! ## Leaves and levels apart -/

theorem flatten_eq (a : Jagged) : a.flatten = ⟨a.leaves, a.lengths.reverse⟩ := by
  induction a with
  | flat xs => rfl
  | nested counts content ih => simp [flatten, leaves, lengths, ih]

/-- The levels of a consistent array can be put on as many leaves as it has. -/
theorem rebuild_withLeaves {overflow : Overflow} (hconsistent : a.Consistent)
    (henough : xs.length = a.leaves.length) :
    Leveled.rebuild ⟨xs, a.lengths.reverse⟩ overflow = .ok (a.withLeaves xs) := by
  induction a with
  | flat ys => rfl
  | nested counts content ih =>
    have hinner := ih hconsistent.2 henough
    have hlength : (content.withLeaves xs).length = content.length := length_withLeaves henough
    have houter : fromCounts overflow counts (content.withLeaves xs) =
        .ok (.nested counts (content.withLeaves xs)) :=
      fromCounts_eq_ok (hconsistent.1.trans hlength.symm)
    rw [Leveled.rebuild] at hinner ⊢
    rw [lengths, List.reverse_cons, List.foldlM_append]
    dsimp only at hinner ⊢
    rw [hinner, ok_bind, List.foldlM_cons, houter]
    rfl

/-! ## Fitting -/

/-- The shallower array has the outermost levels of the deeper one, and as many leaves as the
deeper one has entries at that depth. -/
structure Fits (shallow deep : Jagged) : Prop where
  levels : shallow.lengths <+: deep.lengths
  leaves : shallow.leaves.length = deep.width shallow.depth

instance (a b : Jagged) : Decidable (a.Fits b) :=
  decidable_of_iff (a.lengths <+: b.lengths ∧ a.leaves.length = b.width a.depth)
    ⟨fun h => ⟨h.1, h.2⟩, fun h => ⟨h.levels, h.leaves⟩⟩

/-- Of two arrays the shallower one fits the other. -/
def Compatible (a b : Jagged) : Prop :=
  (a.depth ≤ b.depth → a.Fits b) ∧ (b.depth ≤ a.depth → b.Fits a)

/-- What fits an array is no deeper. -/
theorem Fits.depth_le (h : a.Fits b) : a.depth ≤ b.depth := by
  rw [← length_lengths, ← length_lengths]
  exact h.levels.length_le

theorem Fits.refl (a : Jagged) : a.Fits a :=
  ⟨List.prefix_rfl, a.width_depth.symm⟩

theorem fits_flat : (flat xs).Fits b ↔ xs.length = b.length := by
  constructor
  · exact fun h => h.leaves.trans b.width_zero
  · exact fun hsame => ⟨List.nil_prefix, hsame.trans b.width_zero.symm⟩

/-- A nested array fits another if the outer lengths are the same and the contents fit. -/
theorem fits_nested {counts counts' : List Nat} :
    (nested counts a).Fits (nested counts' b) ↔ counts = counts' ∧ a.Fits b := by
  constructor
  · rintro ⟨hlevels, hleaves⟩
    obtain ⟨hsame, hlevels⟩ := List.cons_prefix_cons.1 hlevels
    exact ⟨hsame, hlevels, hleaves⟩
  · rintro ⟨hsame, hlevels, hleaves⟩
    exact ⟨List.cons_prefix_cons.2 ⟨hsame, hlevels⟩, hleaves⟩

theorem not_fits_nested_flat {counts : List Nat} : ¬ (nested counts a).Fits (flat xs) :=
  fun h => absurd h.depth_le (Nat.not_succ_le_zero _)

/-- Down to the leaves of the shallower array, both have the same number of entries. -/
theorem Fits.width_eq {d : Nat} (h : a.Fits b) (hle : d ≤ a.depth) : a.width d = b.width d := by
  rcases Nat.lt_or_eq_of_le hle with habove | rfl
  · have habove' : d < b.depth := Nat.lt_of_lt_of_le habove h.depth_le
    have hlevel : a.lengths[d]? = b.lengths[d]? := by
      obtain ⟨rest, heq⟩ := h.levels
      rw [← heq, List.getElem?_append_left (by rwa [length_lengths])]
    have hwidths := getElem?_lengths habove
    rw [hlevel, getElem?_lengths habove'] at hwidths
    exact (Option.some.inj hwidths).symm
  · rw [width_depth, h.leaves]

/-- What fits an array fits whatever that one fits. -/
theorem Fits.trans (h : a.Fits b) (h' : b.Fits c) : a.Fits c :=
  ⟨h.levels.trans h'.levels, h.leaves.trans (h'.width_eq h.depth_le)⟩

/-- Of two arrays that fit a third one, the shallower fits the other. -/
theorem Fits.of_fits (h : a.Fits c) (h' : b.Fits c) (hle : a.depth ≤ b.depth) : a.Fits b := by
  refine ⟨List.prefix_of_prefix_length_le h.levels h'.levels ?_, ?_⟩
  · rwa [length_lengths, length_lengths]
  · rw [h.leaves, h'.width_eq hle]

/-- Arrays that fit a common one fit each other, the shallower the deeper. -/
theorem Fits.compatible (h : a.Fits c) (h' : b.Fits c) : a.Compatible b :=
  ⟨h.of_fits h', h'.of_fits h⟩

/-- An array that fits another one of its depth has the same levels. -/
theorem Fits.lengths_eq (h : a.Fits b) (hle : b.depth ≤ a.depth) : a.lengths = b.lengths := by
  refine h.levels.eq_of_length_le ?_
  rwa [length_lengths, length_lengths]

/-- Two arrays have the same levels and as many leaves. -/
structure SameShape (a b : Jagged) : Prop where
  lengths : a.lengths = b.lengths
  leaves : a.leaves.length = b.leaves.length

/-- Arrays that fit each other have the same shape. -/
theorem Fits.sameShape (h : a.Fits b) (h' : b.Fits a) : a.SameShape b := by
  have hdepth : a.depth = b.depth := Nat.le_antisymm h.depth_le h'.depth_le
  refine ⟨h.lengths_eq h'.depth_le, ?_⟩
  rw [h.leaves, hdepth, width_depth]

theorem fits_withLeaves (henough : xs.length = a.leaves.length) :
    (a.withLeaves xs).Fits b ↔ a.Fits b := by
  constructor
  · intro h
    exact ⟨lengths_withLeaves a xs ▸ h.levels, by simpa [henough] using h.leaves⟩
  · intro h
    exact ⟨(lengths_withLeaves a xs).symm ▸ h.levels, by simpa [henough] using h.leaves⟩

end Jagged

end ColumnFlow
