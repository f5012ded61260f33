import ColumnFlow.Proofs.Arrays.Stretching
import Mathlib.Data.List.Forall2

/-!
# Broadcasting is replication along index paths

Arrays can be broadcast together exactly if every two of them are compatible. The first deepest
of them is the target, and every other one is stretched to it. Otherwise the first array that
does not fit the target is named, with the innermost level at which the two differ if there is
one.
-/

namespace ColumnFlow

open Jagged

/-! ## The target -/

/-- The first of the inputs of greatest depth. -/
inductive IsTarget : List (String × Jagged) → String × Jagged → Prop where
  | mk (before after : List (String × Jagged)) {target : String × Jagged} :
      (∀ i ∈ before, i.2.depth < target.2.depth) → (∀ i ∈ after, i.2.depth ≤ target.2.depth) →
      IsTarget (before ++ target :: after) target

variable {inputs : List (String × Jagged)} {target input : String × Jagged}

theorem IsTarget.mem (h : IsTarget inputs target) : target ∈ inputs := by
  cases h
  simp

theorem IsTarget.depth_le (h : IsTarget inputs target) :
    ∀ i ∈ inputs, i.2.depth ≤ target.2.depth := by
  obtain ⟨before, after, hshallower, hothers⟩ := h
  refine List.forall_mem_append.2 ⟨fun i hmem => Nat.le_of_lt (hshallower i hmem), ?_⟩
  exact List.forall_mem_cons.2 ⟨Nat.le_refl _, hothers⟩

theorem depth_flatten (a : Jagged) : a.flatten.depth = a.depth := by
  rw [flatten_eq, Leveled.depth, List.length_reverse, length_lengths]

/-- The search for the deepest input finds the target. -/
theorem deepest_eq (hnonempty : inputs ≠ []) :
    ∃ target, IsTarget inputs target ∧
      deepest (inputs.map fun i => (i.1, i.2.flatten)) = some (target.1, target.2.flatten) := by
  induction inputs with
  | nil => exact absurd rfl hnonempty
  | cons i is ih =>
    rw [List.map_cons, deepest]
    by_cases hlast : is = []
    · subst hlast
      exact ⟨i, .mk [] [] (by simp) (by simp), rfl⟩
    · obtain ⟨target, hfirst, hfound⟩ := ih hlast
      rw [hfound]
      dsimp only
      rw [depth_flatten, depth_flatten]
      split
      · next hdeeper =>
        obtain ⟨before, after, hshallower, hothers⟩ := hfirst
        refine ⟨target, ?_, rfl⟩
        exact .mk (i :: before) after (List.forall_mem_cons.2 ⟨hdeeper, hshallower⟩) hothers
      · next hnotDeeper =>
        have hrest : ∀ j ∈ is, j.2.depth ≤ i.2.depth :=
          fun j hmem => Nat.le_trans (hfirst.depth_le j hmem) (Nat.le_of_not_lt hnotDeeper)
        exact ⟨i, .mk [] is (by simp) hrest, rfl⟩

/-! ## Differing levels -/

theorem firstDifference_eq_none {level : Nat} {as bs : List (List Nat)}
    (hsame : as.length = bs.length) (hnone : firstDifference level as bs = none) : as = bs := by
  induction as generalizing level bs with
  | nil => exact (List.length_eq_zero_iff.1 hsame.symm).symm
  | cons a as ih =>
    cases bs with
    | nil => cases hsame
    | cons b bs =>
      rw [firstDifference] at hnone
      split at hnone
      · next heq => rw [heq, ih (Nat.succ.inj hsame) hnone]
      · cases hnone

theorem firstDifference_self (level : Nat) (as : List (List Nat)) :
    firstDifference level as as = none := by
  induction as generalizing level with
  | nil => rfl
  | cons a as ih => rw [firstDifference, if_pos rfl, ih]

/-- In front of the first difference the lists are the same. -/
theorem firstDifference_eq_some {level place : Nat} {as bs : List (List Nat)} {a b : List Nat}
    (hfound : firstDifference level as bs = some (place, a, b)) :
    a ≠ b ∧ ∃ common as' bs', as = common ++ a :: as' ∧ bs = common ++ b :: bs' ∧
      place = level + common.length := by
  induction as generalizing level bs with
  | nil => cases hfound
  | cons c as ih =>
    cases bs with
    | nil => cases hfound
    | cons d bs =>
      rw [firstDifference] at hfound
      split at hfound
      · next hsame =>
        subst hsame
        obtain ⟨hdiffer, common, as', bs', rfl, rfl, rfl⟩ := ih hfound
        refine ⟨hdiffer, c :: common, as', bs', rfl, rfl, ?_⟩
        rw [List.length_cons]
        omega
      · next hdiffer =>
        cases hfound
        exact ⟨hdiffer, [], as, bs, rfl, rfl, rfl⟩

/-! ## Aligning with the target -/

/-- What is wrong with an input that does not fit the target. -/
inductive Misfit (target input : String × Jagged) : ShapeError → Prop where
  /-- A shared level differs. Those further in, if any, are the same. -/
  | level {outer outer' inner deeper : List (List Nat)} {expected found : List Nat} :
      target.2.lengths = outer ++ expected :: (inner ++ deeper) →
      input.2.lengths = outer' ++ found :: inner → outer.length = outer'.length →
      expected ≠ found →
      Misfit target input
        (.levelMismatch (inner.length + deeper.length) input.1 target.1 expected found)
  /-- All shared levels are the same, but there is not one leaf for each entry of the target. -/
  | leaves : input.2.lengths <+: target.2.lengths →
      input.2.leaves.length ≠ target.2.width input.2.depth →
      Misfit target input (.lengthMismatch input.1 target.1 (target.2.width input.2.depth)
        input.2.leaves.length)

theorem entriesAbove_eq {a : Jagged} {d : Nat} (hle : d ≤ a.depth) :
    a.flatten.entriesAbove (a.depth - d) = a.width d := by
  rcases Nat.lt_or_eq_of_le hle with habove | rfl
  · obtain ⟨below, heq⟩ := Nat.exists_eq_succ_of_ne_zero (Nat.sub_ne_zero_of_lt habove)
    have hplace : a.lengths.length - 1 - below = d := by
      rw [length_lengths]
      omega
    have hinside : below < a.lengths.length := by
      rw [length_lengths]
      omega
    rw [heq, Leveled.entriesAbove, flatten_eq, List.getElem?_reverse hinside, hplace,
      getElem?_lengths habove]
    rfl
  · rw [Nat.sub_self, Leveled.entriesAbove, flatten_eq, width_depth]

/-- The levels that the target shares with an input, and those further in. -/
theorem levels_flatten {a t : Jagged} (hle : a.depth ≤ t.depth) :
    t.flatten.levels.drop (t.depth - a.depth) = (t.lengths.take a.depth).reverse ∧
      t.flatten.levels.take (t.depth - a.depth) = (t.lengths.drop a.depth).reverse := by
  have hrest : t.depth - (t.depth - a.depth) = a.depth := by omega
  rw [flatten_eq]
  exact ⟨by rw [List.drop_reverse, length_lengths, hrest],
    by rw [List.take_reverse, length_lengths, hrest]⟩

/-- An input that fits the target is stretched to it. -/
theorem align_ok (hfits : input.2.Fits target.2) :
    align target.1 target.2.flatten input.1 input.2.flatten = .ok (input.2.stretch target.2) := by
  obtain ⟨hshared, hinner⟩ := levels_flatten hfits.depth_le
  have hown : target.2.lengths.take input.2.depth = input.2.lengths := by
    rw [← length_lengths]
    exact (List.prefix_iff_eq_take.1 hfits.levels).symm
  have hlevels : input.2.flatten.levels = input.2.lengths.reverse := by rw [flatten_eq]
  have hleaves : input.2.flatten.leaves = input.2.leaves := by rw [flatten_eq]
  rw [align, depth_flatten, depth_flatten, hshared, hinner, hown, hlevels]
  dsimp only
  rw [firstDifference_self]
  dsimp only
  rw [entriesAbove_eq hfits.depth_le, hleaves, if_pos hfits.leaves, List.foldr_reverse]
  rfl

/-- An input that does not fit the target is refused for what is wrong with it. -/
theorem align_error (hle : input.2.depth ≤ target.2.depth) (hunfit : ¬ input.2.Fits target.2) :
    ∃ e, align target.1 target.2.flatten input.1 input.2.flatten = .error e ∧
      Misfit target input e := by
  obtain ⟨hshared, -⟩ := levels_flatten hle
  have hlevels : input.2.flatten.levels = input.2.lengths.reverse := by rw [flatten_eq]
  have hleaves : input.2.flatten.leaves = input.2.leaves := by rw [flatten_eq]
  have hsplit : target.2.lengths =
      target.2.lengths.take input.2.depth ++ target.2.lengths.drop input.2.depth :=
    (List.take_append_drop _ _).symm
  have hown : (target.2.lengths.take input.2.depth).length = input.2.lengths.length := by
    rw [List.length_take, length_lengths, length_lengths, Nat.min_eq_left hle]
  have hdeeper : (target.2.lengths.drop input.2.depth).length = target.2.depth - input.2.depth := by
    rw [List.length_drop, length_lengths]
  rw [align, depth_flatten, depth_flatten, hshared, hlevels, hleaves]
  dsimp only
  rw [entriesAbove_eq hle]
  cases hdifference : firstDifference (target.2.depth - input.2.depth)
      (target.2.lengths.take input.2.depth).reverse input.2.lengths.reverse with
  -- The shared levels agree, so the number of leaves is what does not fit.
  | none =>
    have hsame := List.reverse_inj.1 (firstDifference_eq_none (by simpa using hown) hdifference)
    have hagrees : input.2.lengths <+: target.2.lengths := hsame ▸ List.take_prefix _ _
    have hother : input.2.leaves.length ≠ target.2.width input.2.depth :=
      fun henough => hunfit ⟨hagrees, henough⟩
    refine ⟨_, if_neg hother, .leaves hagrees hother⟩
  -- The levels are compared from the inside, and the error names them from the outside.
  | some found =>
    obtain ⟨place, expected, found⟩ := found
    obtain ⟨hdiffer, inner, outer, outer', hfirst, hsecond, rfl⟩ :=
      firstDifference_eq_some hdifference
    have hfirst := congrArg List.reverse hfirst
    have hsecond := congrArg List.reverse hsecond
    simp only [List.reverse_reverse, List.reverse_append, List.reverse_cons, List.append_assoc,
      List.singleton_append] at hfirst hsecond
    have haligned : outer.reverse.length = outer'.reverse.length := by
      rw [hfirst, hsecond] at hown
      simpa using hown
    rw [hfirst] at hsplit
    refine ⟨_, rfl, ?_⟩
    have hplace : target.2.depth - input.2.depth + inner.length =
        inner.reverse.length + (target.2.lengths.drop input.2.depth).length := by
      rw [hdeeper, List.length_reverse, Nat.add_comm]
    rw [hplace]
    exact .level (by simpa using hsplit) hsecond haligned hdiffer

/-! ## All inputs -/

/-- Of the elements of a list, all have a property, or there is a first one that has not. -/
theorem forall_mem_or_first {α : Type} (p : α → Prop) (xs : List α) :
    (∀ x ∈ xs, p x) ∨
      ∃ before x after, xs = before ++ x :: after ∧ (∀ y ∈ before, p y) ∧ ¬ p x := by
  induction xs with
  | nil => exact .inl (List.forall_mem_nil p)
  | cons x xs ih =>
    by_cases hfirst : p x
    · rcases ih with hrest | ⟨before, y, after, rfl, hearlier, hnone⟩
      · exact .inl (List.forall_mem_cons.2 ⟨hfirst, hrest⟩)
      · exact .inr ⟨x :: before, y, after, rfl, List.forall_mem_cons.2 ⟨hfirst, hearlier⟩, hnone⟩
    · exact .inr ⟨[], x, xs, rfl, List.forall_mem_nil p, hfirst⟩

/-- All inputs are stretched to the target, or the first that does not fit is refused. -/
theorem broadcast_eq (hnonempty : inputs ≠ []) :
    ∃ target, IsTarget inputs target ∧
      ((∀ i ∈ inputs, i.2.Fits target.2) ∧
          broadcast inputs = .ok ⟨some target.1, target.2.lengths.reverse,
            inputs.map fun i => (i.1, i.2.stretch target.2)⟩ ∨
        ∃ before input after e, inputs = before ++ input :: after ∧
          (∀ i ∈ before, i.2.Fits target.2) ∧ ¬ input.2.Fits target.2 ∧
          Misfit target input e ∧ broadcast inputs = .error e) := by
  obtain ⟨target, hfirst, hfound⟩ := deepest_eq hnonempty
  have haligned : ∀ i : String × Jagged, i.2.Fits target.2 →
      (align target.1 target.2.flatten i.1 i.2.flatten).map (fun column => (i.1, column)) =
        .ok (i.1, i.2.stretch target.2) := by
    intro i hfits
    rw [align_ok hfits]
    rfl
  refine ⟨target, hfirst, ?_⟩
  rw [broadcast, hfound]
  dsimp only
  rw [List.mapM_map, Function.comp_def]
  rcases forall_mem_or_first (fun i : String × Jagged => i.2.Fits target.2) inputs with
    hall | ⟨before, input, after, rfl, hearlier, hunfit⟩
  · refine .inl ⟨hall, ?_⟩
    rw [mapM_eq_ok_map fun i hmem => haligned i (hall i hmem), ok_bind, flatten_eq]
    rfl
  · obtain ⟨e, herror, hmisfit⟩ := align_error (hfirst.depth_le input (by simp)) hunfit
    refine .inr ⟨before, input, after, e, rfl, hearlier, hunfit, hmisfit, ?_⟩
    rw [mapM_eq_error (e := e) (fun i hmem => ⟨_, haligned i (hearlier i hmem)⟩)
      (by rw [herror]; rfl)]
    rfl

/-- A column replicates an input along the index paths of the target: at each leaf of the target
it has the leaf of the input at the same path, cut to the depth of the input. -/
structure Replicates (target : Jagged) (input : String × Jagged)
    (column : String × List Float) : Prop where
  name : column.1 = input.1
  length : column.2.length = target.leaves.length
  leaf : ∀ path, (target.leafAt? path).isSome →
    ∃ x, (target.withLeaves column.2).leafAt? path = some x ∧
      input.2.leafAt? (path.take (input.2.depth + 1)) = some x

theorem replicates_stretch {t : Jagged} (hconsistent : t.Consistent) (hfits : input.2.Fits t) :
    Replicates t input (input.1, input.2.stretch t) := by
  have hlength := length_stretch hconsistent hfits
  refine ⟨rfl, hlength, fun path hleaf => ?_⟩
  have hleaf' : ((t.withLeaves (input.2.stretch t)).leafAt? path).isSome := by
    rwa [isSome_leafAt?_withLeaves hlength]
  obtain ⟨x, hfound⟩ := Option.isSome_iff_exists.1 hleaf'
  exact ⟨x, hfound, (leafAt?_stretch hconsistent hfits hleaf).symm.trans hfound⟩

/-- An input is replicated in one way only, since every leaf of the target is at some path. -/
theorem rightUnique_replicates {t : Jagged} (hconsistent : t.Consistent) :
    Relator.RightUnique (Replicates t) := by
  intro input column column' h h'
  refine Prod.ext (h.name.trans h'.name.symm) (List.ext_getElem? fun k => ?_)
  by_cases hinside : k < t.leaves.length
  · obtain ⟨i, path, -, hfound⟩ := exists_path hconsistent hinside
    have hleaf : (t.leafAt? (i :: path)).isSome := by
      rw [← withLeaves_leaves t, hfound, isSome_getElem?]
      exact hinside
    obtain ⟨x, hvalue, hown⟩ := h.leaf _ hleaf
    obtain ⟨x', hvalue', hown'⟩ := h'.leaf _ hleaf
    rw [← hfound, ← hfound, hvalue, hvalue', ← hown, hown']
  · have hbeyond := Nat.le_of_not_lt hinside
    rw [List.getElem?_eq_none (h.length.symm ▸ hbeyond),
      List.getElem?_eq_none (h'.length.symm ▸ hbeyond)]

/-- Broadcasting succeeds exactly if every two inputs are compatible. The target is the first
input of greatest depth, and the columns replicate the inputs in their order, as no other columns
do. Otherwise the first input that does not fit the target is refused for what is wrong with it. -/
theorem broadcast_replicates (hnonempty : inputs ≠ [])
    (hconsistent : ∀ i ∈ inputs, i.2.Consistent) :
    ((∃ b, broadcast inputs = .ok b) ↔ ∀ i ∈ inputs, ∀ j ∈ inputs, i.2.Compatible j.2) ∧
      ∃ target, IsTarget inputs target ∧
        (∀ b, broadcast inputs = .ok b →
          b.target = some target.1 ∧ b.levels = target.2.lengths.reverse ∧
            List.Forall₂ (Replicates target.2) inputs b.columns ∧
            ∀ columns, List.Forall₂ (Replicates target.2) inputs columns → columns = b.columns) ∧
        (∀ e, broadcast inputs = .error e →
          ∃ before input after, inputs = before ++ input :: after ∧
            (∀ i ∈ before, i.2.Fits target.2) ∧ ¬ input.2.Fits target.2 ∧
            Misfit target input e) := by
  obtain ⟨target, hfirst, ⟨hall, hok⟩ |
    ⟨before, input, after, e, hsplit, hearlier, hunfit, hmisfit, herror⟩⟩ :=
    broadcast_eq hnonempty
  · refine ⟨⟨fun _ i hmem j hmem' => (hall i hmem).compatible (hall j hmem'), fun _ => ⟨_, hok⟩⟩,
      target, hfirst, ?_, ?_⟩
    · intro b hsucceeded
      cases hok.symm.trans hsucceeded
      have hwhole := hconsistent _ hfirst.mem
      have hcolumns : List.Forall₂ (Replicates target.2) inputs
          (inputs.map fun i => (i.1, i.2.stretch target.2)) := by
        rw [List.forall₂_map_right_iff, List.forall₂_same]
        exact fun i hmem => replicates_stretch hwhole (hall i hmem)
      refine ⟨rfl, rfl, hcolumns, fun others hreplicate => ?_⟩
      exact List.right_unique_forall₂' (rightUnique_replicates hwhole) hreplicate hcolumns
    · intro e hfailed
      cases hok.symm.trans hfailed
  · refine ⟨⟨?_, ?_⟩, target, hfirst, ?_, ?_⟩
    · rintro ⟨b, hsucceeded⟩
      cases herror.symm.trans hsucceeded
    · intro hcompatible
      have hmem : input ∈ inputs := by simp [hsplit]
      exact absurd
        ((hcompatible input hmem target hfirst.mem).1 (hfirst.depth_le input hmem)) hunfit
    · intro b hsucceeded
      cases herror.symm.trans hsucceeded
    · intro e' hfailed
      cases herror.symm.trans hfailed
      exact ⟨before, input, after, hsplit, hearlier, hunfit, hmisfit⟩

/-- Arrays of no, one and two levels are replicated to the deepest one. It has an empty entry. -/
theorem broadcast_replicates_two_levels :
    let outer : Jagged := .flat [1.0, 2.0]
    let middle : Jagged := .nested [2, 1] (.flat [3.0, 4.0, 5.0])
    let inner : Jagged := .nested [2, 1] (.nested [1, 0, 2] (.flat [6.0, 7.0, 8.0]))
    let inputs := [("outer", outer), ("inner", inner), ("middle", middle)]
    inputs ≠ [] ∧ (∀ i ∈ inputs, i.2.Consistent) ∧
      ∃ b, broadcast inputs = .ok b ∧ List.Forall₂ (Replicates inner) inputs b.columns := by
  intro outer middle inner inputs
  have hnonempty : inputs ≠ [] := by simp [inputs]
  have hconsistent : ∀ i ∈ inputs, i.2.Consistent := by decide
  have hfits : ∀ i ∈ inputs, i.2.Fits inner := by decide
  obtain ⟨hsuccess, target, hfirst, hok, -⟩ := broadcast_replicates hnonempty hconsistent
  obtain ⟨b, hsucceeded⟩ := hsuccess.2 fun i hmem j hmem' =>
    (hfits i hmem).compatible (hfits j hmem')
  have hdeepest : target = ("inner", inner) := by
    have hmem := hfirst.mem
    have hdepth := hfirst.depth_le ("inner", inner) (by simp [inputs])
    simp only [inputs, List.mem_cons, List.not_mem_nil, or_false] at hmem
    rcases hmem with rfl | rfl | rfl
    · exact absurd hdepth (by decide)
    · rfl
    · exact absurd hdepth (by decide)
  subst hdeepest
  exact ⟨hnonempty, hconsistent, b, hsucceeded, (hok b hsucceeded).2.2.1⟩

end ColumnFlow
