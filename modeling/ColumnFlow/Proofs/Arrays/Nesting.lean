import Mathlib.Data.List.Induction
import ColumnFlow.Proofs.Arrays.Broadcasting

/-!
# Taking levels off and putting them on

Flattening an array and nesting its leaves and levels undo each other. Levels can be put on leaves
if the lengths of each sum to the number of entries below it. Otherwise the innermost level for
which they do not is reported.
-/

namespace ColumnFlow

namespace Leveled

variable {c : Leveled} {leaves : List Float} {levels : List (List Nat)} {counts : List Nat}

/-! ## Levels that fit -/

/-- The lengths of a level sum to the number of entries below it: the leaves for the innermost
level, the entries of the level further in for any other. -/
def FitsAt (c : Leveled) (i : Nat) : Prop :=
  ∀ counts, c.levels[i]? = some counts → Jagged.total counts = c.entriesAbove i

/-- The error reports the innermost level that does not fit. -/
def FirstMisfit (c : Leveled) (e : ShapeError) : Prop :=
  ∃ i counts, c.levels[i]? = some counts ∧ Jagged.total counts ≠ c.entriesAbove i ∧
    (∀ j < i, c.FitsAt j) ∧ e = .countMismatch i (Jagged.total counts) (c.entriesAbove i)

/-- One more level outside does not change what is below the others. -/
theorem entriesAbove_snoc {i : Nat} (hinside : i ≤ levels.length) :
    entriesAbove ⟨leaves, levels ++ [counts]⟩ i = entriesAbove ⟨leaves, levels⟩ i := by
  cases i with
  | zero => rfl
  | succ i => rw [entriesAbove, entriesAbove, List.getElem?_append_left hinside]

theorem fitsAt_snoc {i : Nat} (hinside : i < levels.length) :
    FitsAt ⟨leaves, levels ++ [counts]⟩ i ↔ FitsAt ⟨leaves, levels⟩ i := by
  unfold FitsAt
  rw [List.getElem?_append_left hinside, entriesAbove_snoc (Nat.le_of_lt hinside)]

/-- With a level that fits outside, all levels fit. -/
theorem forall_fitsAt_snoc (hfit : ∀ i, FitsAt ⟨leaves, levels⟩ i)
    (hlast : Jagged.total counts = entriesAbove ⟨leaves, levels⟩ levels.length) :
    ∀ i, FitsAt ⟨leaves, levels ++ [counts]⟩ i := by
  intro i
  rcases Nat.lt_trichotomy i levels.length with hinside | rfl | hbeyond
  · exact (fitsAt_snoc hinside).2 (hfit i)
  · intro counts' hlevel
    rw [List.getElem?_concat_length] at hlevel
    cases hlevel
    rwa [entriesAbove_snoc (Nat.le_refl _)]
  · intro counts' hlevel
    have hout : (levels ++ [counts]).length ≤ i := by
      rw [List.length_append]
      exact hbeyond
    rw [List.getElem?_eq_none hout] at hlevel
    cases hlevel

/-- A misfit further in is reported before the level outside is looked at. -/
theorem FirstMisfit.snoc {e : ShapeError} (h : FirstMisfit ⟨leaves, levels⟩ e) :
    FirstMisfit ⟨leaves, levels ++ [counts]⟩ e := by
  obtain ⟨i, own, hlevel, hdiffer, hfit, rfl⟩ := h
  obtain ⟨hinside, -⟩ := List.getElem?_eq_some_iff.1 hlevel
  have hsame := @entriesAbove_snoc leaves levels counts i (Nat.le_of_lt hinside)
  refine ⟨i, own, (List.getElem?_append_left hinside).trans hlevel, hsame ▸ hdiffer, ?_,
    hsame ▸ rfl⟩
  exact fun j hbefore => (fitsAt_snoc (Nat.lt_trans hbefore hinside)).2 (hfit j hbefore)

theorem FirstMisfit.not_fits {e : ShapeError} (h : c.FirstMisfit e) : ¬ ∀ i, c.FitsAt i := by
  obtain ⟨i, counts, hlevel, hdiffer, -⟩ := h
  exact fun hall => hdiffer (hall i counts hlevel)

/-- Only one error reports the innermost misfit. -/
theorem FirstMisfit.unique {e e' : ShapeError} (h : c.FirstMisfit e) (h' : c.FirstMisfit e') :
    e = e' := by
  obtain ⟨i, counts, hlevel, hdiffer, hfit, rfl⟩ := h
  obtain ⟨j, counts', hlevel', hdiffer', hfit', rfl⟩ := h'
  rcases Nat.lt_trichotomy i j with hbefore | rfl | hbefore
  · exact absurd (hfit' i hbefore counts hlevel) hdiffer
  · cases hlevel.symm.trans hlevel'
    rfl
  · exact absurd (hfit j hbefore counts' hlevel') hdiffer'

/-! ## Nesting -/

/-- The outermost level is put on last. -/
theorem nest_snoc : nest ⟨leaves, levels ++ [counts]⟩ =
    nest ⟨leaves, levels⟩ >>= Jagged.wrap counts := by
  rw [nest, List.foldlM_append]
  exact bind_congr fun a => bind_pure _

/-- Where every level is put on what is below it, taking the levels off gives them back. -/
theorem flatten_of_foldlM {ε : Type} {put : Jagged → List Nat → Except ε Jagged} {a : Jagged}
    (hput : ∀ content counts a, put content counts = .ok a → a = .nested counts content)
    (hbuilt : levels.foldlM put (.flat leaves) = .ok a) : a.flatten = ⟨leaves, levels⟩ := by
  induction levels using List.reverseRecOn generalizing a with
  | nil =>
    cases hbuilt
    rfl
  | append_singleton levels counts ih =>
    rw [List.foldlM_append] at hbuilt
    obtain ⟨content, hinner, houter⟩ := bind_eq_ok_iff.1 hbuilt
    obtain ⟨a', houter, hdone⟩ := bind_eq_ok_iff.1 houter
    cases hdone
    rw [hput content counts a houter, Jagged.flatten, ih hinner]

/-- What is put together from leaves and levels has the entries of the outermost level. -/
theorem length_of_nest {a : Jagged} (hnested : c.nest = .ok a) :
    a.depth = c.depth ∧ a.length = c.entriesAbove c.depth := by
  have hparts : a.flatten = c :=
    flatten_of_foldlM (fun _ _ _ hwrap => ((Jagged.wrap_eq_ok_iff _ _ _).1 hwrap).2) hnested
  have hdepth : a.depth = c.depth := by rw [← hparts, depth_flatten]
  have hwidth := entriesAbove_eq (Nat.zero_le a.depth)
  rw [Nat.sub_zero, hparts, Jagged.width_zero, hdepth] at hwidth
  exact ⟨hdepth, hwidth.symm⟩

/-- Either all levels fit and are put on, or the innermost misfit is reported. -/
theorem nest_outcome (c : Leveled) :
    (∃ a, c.nest = .ok a ∧ ∀ i, c.FitsAt i) ∨ ∃ e, c.nest = .error e ∧ c.FirstMisfit e := by
  obtain ⟨leaves, levels⟩ := c
  induction levels using List.reverseRecOn with
  | nil => exact .inl ⟨.flat leaves, rfl, fun _ _ hlevel => by cases hlevel⟩
  | append_singleton levels counts ih =>
    rw [nest_snoc]
    rcases ih with ⟨a, hnested, hfit⟩ | ⟨e, hfailed, hmisfit⟩
    · obtain ⟨hdepth, hlength⟩ := length_of_nest hnested
      rw [hnested, ok_bind, Jagged.wrap, hlength, hdepth]
      split
      · next hsame => exact .inl ⟨_, rfl, forall_fitsAt_snoc hfit hsame⟩
      · next hdiffer =>
        refine .inr ⟨_, rfl, levels.length, counts, List.getElem?_concat_length, ?_, ?_, ?_⟩
        · rwa [entriesAbove_snoc (Nat.le_refl _)]
        · exact fun j hinside => (fitsAt_snoc hinside).2 (hfit j)
        · rw [entriesAbove_snoc (Nat.le_refl _)]
          rfl
    · rw [hfailed]
      exact .inr ⟨e, rfl, hmisfit.snoc⟩

/-! ## Rebuilding -/

variable {overflow : Overflow}

/-- The lengths of every level that is reached sum to a word. -/
def SumsFit (c : Leveled) : Prop :=
  ∀ i counts, c.levels[i]? = some counts → (∀ j < i, c.FitsAt j) →
    Jagged.total counts < Jagged.wordsFor (c.entriesAbove i)

theorem rebuild_snoc : rebuild ⟨leaves, levels ++ [counts]⟩ overflow =
    rebuild ⟨leaves, levels⟩ overflow >>= Jagged.fromCounts overflow counts := by
  rw [rebuild, List.foldlM_append]
  exact bind_congr fun a => bind_pure _

/-- A level is put on where the sum that the build finds is the number of entries below. -/
theorem fromCounts_eq_ok_iff {content a : Jagged} :
    Jagged.fromCounts overflow counts content = .ok a ↔
      overflow.sum (Jagged.wordsFor content.length) counts = .ok content.length ∧
        a = .nested counts content := by
  unfold Jagged.fromCounts
  constructor
  · intro hput
    obtain ⟨sum, hsum, hput⟩ := bind_eq_ok_iff.1 hput
    split at hput
    · next heq =>
      cases hput
      exact ⟨(mapError_eq_ok_iff.1 hsum).trans (congrArg Except.ok heq), rfl⟩
    · cases hput
  · rintro ⟨hsum, rfl⟩
    rw [hsum]
    exact if_pos rfl

/-- Taking the levels off gives what they were put on, and the levels. -/
theorem flatten_of_rebuild {a : Jagged} (hbuilt : c.rebuild overflow = .ok a) : a.flatten = c :=
  flatten_of_foldlM (fun _ _ _ hput => (fromCounts_eq_ok_iff.1 hput).2) hbuilt

/-- A build that faults puts levels on leaves only where their lengths add up. -/
theorem consistent_of_rebuild {a : Jagged} (hbuilt : c.rebuild .faults = .ok a) :
    a.Consistent := by
  obtain ⟨leaves, levels⟩ := c
  induction levels using List.reverseRecOn generalizing a with
  | nil =>
    cases hbuilt
    trivial
  | append_singleton levels counts ih =>
    obtain ⟨content, hinner, houter⟩ := bind_eq_ok_iff.1 (rebuild_snoc.symm.trans hbuilt)
    obtain ⟨hsum, rfl⟩ := fromCounts_eq_ok_iff.1 houter
    rw [Overflow.sum_faults (Nat.zero_lt_of_lt (Jagged.lt_wordsFor _))] at hsum
    split at hsum
    · exact ⟨Except.ok.inj hsum, ih hinner⟩
    · cases hsum

/-- A sum that is reported is a word. -/
theorem lt_of_rebuild {level sum length : Nat}
    (hfailed : c.rebuild overflow = .error (.shape (.countMismatch level sum length))) :
    sum < Jagged.wordsFor length := by
  obtain ⟨leaves, levels⟩ := c
  induction levels using List.reverseRecOn with
  | nil => cases hfailed
  | append_singleton levels counts ih =>
    rw [rebuild_snoc] at hfailed
    cases hinner : rebuild ⟨leaves, levels⟩ overflow with
    | error e =>
      rw [hinner] at hfailed
      exact ih (hinner.trans hfailed)
    | ok content =>
      rw [hinner, ok_bind, Jagged.fromCounts] at hfailed
      cases hsum : overflow.sum (Jagged.wordsFor content.length) counts with
      | error fault =>
        rw [hsum] at hfailed
        cases hfailed
      | ok s =>
        rw [hsum] at hfailed
        change (if s = content.length then _ else _) = _ at hfailed
        split at hfailed
        · cases hfailed
        · cases hfailed
          exact Overflow.lt_of_sum (Nat.zero_lt_of_lt (Jagged.lt_wordsFor _)) hsum

/-- Where the sum is a word, a level is put on as if every sum were one. -/
theorem fromCounts_eq_wrap {content : Jagged}
    (hword : Jagged.total counts < Jagged.wordsFor content.length) :
    Jagged.fromCounts overflow counts content = (Jagged.wrap counts content).mapError .shape := by
  rw [Jagged.fromCounts, Overflow.sum_eq_ok hword, Jagged.wrap]
  change (if Jagged.total counts = content.length then _ else _) = _
  split <;> rfl

theorem SumsFit.of_snoc (h : SumsFit ⟨leaves, levels ++ [counts]⟩) : SumsFit ⟨leaves, levels⟩ := by
  intro i own hlevel hfit
  obtain ⟨hinside, -⟩ := List.getElem?_eq_some_iff.1 hlevel
  have hword := h i own ((List.getElem?_append_left hinside).trans hlevel)
    fun j hj => (fitsAt_snoc (Nat.lt_trans hj hinside)).2 (hfit j hj)
  rwa [entriesAbove_snoc (Nat.le_of_lt hinside)] at hword

/-- Where the sums are words, levels are put on as if every sum were one. -/
theorem SumsFit.rebuild_eq (h : c.SumsFit) : c.rebuild overflow = c.nest.mapError .shape := by
  obtain ⟨leaves, levels⟩ := c
  induction levels using List.reverseRecOn with
  | nil => rfl
  | append_singleton levels counts ih =>
    rw [rebuild_snoc, nest_snoc, ih h.of_snoc]
    rcases nest_outcome ⟨leaves, levels⟩ with ⟨content, hnested, hfit⟩ | ⟨e, hfailed, -⟩
    · have hlength : content.length = entriesAbove ⟨leaves, levels⟩ levels.length :=
        (length_of_nest hnested).2
      rw [hnested, ok_bind]
      refine fromCounts_eq_wrap ?_
      have hword := h levels.length counts List.getElem?_concat_length
        fun j hj => (fitsAt_snoc hj).2 (hfit j)
      rwa [entriesAbove_snoc (Nat.le_refl _), ← hlength] at hword
    · rw [hfailed]
      rfl

/-- A misfit whose sum is not a word is not reported. -/
theorem not_reported (hwide : ¬ c.SumsFit) :
    ∃ e, c.FirstMisfit e ∧ c.rebuild overflow ≠ .error (.shape e) := by
  simp only [SumsFit, not_forall, Nat.not_lt] at hwide
  obtain ⟨i, counts, hlevel, hfit, hwide⟩ := hwide
  have hdiffer : Jagged.total counts ≠ c.entriesAbove i := fun heq =>
    absurd (Jagged.lt_wordsFor (c.entriesAbove i)) (Nat.not_lt.2 (heq ▸ hwide))
  refine ⟨_, ⟨i, counts, hlevel, hdiffer, hfit, rfl⟩, fun hreported => ?_⟩
  exact absurd (lt_of_rebuild hreported) (Nat.not_lt.2 hwide)

end Leveled

/-- Rebuilding the leaves and levels of a consistent array gives the array back, and flattening what
was rebuilt gives its leaves and levels, whatever the build does about sums that are not words.
Rebuilding succeeds exactly if every level fits what is below it and else reports the innermost
level that does not fit, with the sum of its lengths and the number of entries below it, if and only
if no level is reached whose lengths sum to more than a word holds. -/
theorem flatten_rebuild_inverse (overflow : Overflow) :
    (∀ a : Jagged, a.Consistent → a.flatten.rebuild overflow = .ok a) ∧
    ∀ c : Leveled,
      (∀ a, c.rebuild overflow = .ok a → a.flatten = c) ∧
      ((((∃ a, c.rebuild overflow = .ok a) ↔ ∀ i, c.FitsAt i) ∧
        ∀ e, c.rebuild overflow = .error e ↔ ∃ cause, e = .shape cause ∧ c.FirstMisfit cause) ↔
      c.SumsFit) := by
  constructor
  · intro a hconsistent
    rw [Jagged.flatten_eq, Jagged.rebuild_withLeaves hconsistent rfl, Jagged.withLeaves_leaves]
  · refine fun c => ⟨fun a => Leveled.flatten_of_rebuild, ?_, fun hwords => ?_⟩
    · rintro ⟨-, hreports⟩
      by_contra hwide
      obtain ⟨cause, hmisfit, hsilent⟩ := @Leveled.not_reported c overflow hwide
      exact hsilent ((hreports (.shape cause)).2 ⟨cause, rfl, hmisfit⟩)
    · rw [hwords.rebuild_eq]
      rcases c.nest_outcome with ⟨a, hnested, hfit⟩ | ⟨cause, hfailed, hmisfit⟩
      · rw [hnested]
        refine ⟨iff_of_true ⟨a, rfl⟩ hfit, fun e => iff_of_false nofun ?_⟩
        rintro ⟨cause, -, hmisfit⟩
        exact hmisfit.not_fits hfit
      · rw [hfailed]
        refine ⟨iff_of_false nofun hmisfit.not_fits, fun e => ⟨fun heq => ?_, ?_⟩⟩
        · exact ⟨cause, (Except.error.inj heq).symm, hmisfit⟩
        · rintro ⟨cause', rfl, hmisfit'⟩
          exact congrArg (fun e => Except.error (BuildError.shape e)) (hmisfit.unique hmisfit')

/-- Entries without content at two levels, and levels of which the second and the third misfit. -/
theorem flatten_rebuild_inverse_empty_entries :
    let x := Float.ofBits 0x3FF0000000000000
    let a : Jagged := .nested [0, 2, 0] (.nested [1, 0] (.flat [x]))
    let c : Leveled := ⟨[x, x], [[2, 0], [1], [5]]⟩
    a.Consistent ∧ a.flatten.rebuild = .ok a ∧ a.flatten = ⟨[x], [[1, 0], [0, 2, 0]]⟩ ∧
      c.SumsFit ∧ c.rebuild = .error (.shape (.countMismatch 1 1 2)) := by
  intro x a c
  have hconsistent : a.Consistent := ⟨rfl, rfl, trivial⟩
  obtain ⟨hback, hparts⟩ := flatten_rebuild_inverse .faults
  have hrebuilt : (⟨[x], [[1, 0], [0, 2, 0]]⟩ : Leveled).rebuild = .ok a := rfl
  have hwords : c.SumsFit := by
    intro i counts hlevel hfit
    refine Nat.lt_of_lt_of_le ?_ (Nat.le_max_left _ _)
    match i with
    | 0 | 1 | 2 =>
      cases hlevel
      decide
    | i + 3 => cases hlevel
  refine ⟨hconsistent, hback a hconsistent, (hparts _).1 a hrebuilt, hwords, ?_⟩
  refine (((hparts c).2.2 hwords).2 _).2 ⟨_, rfl, 1, [1], rfl, (by decide : 1 ≠ 2),
    fun j hj => ?_, rfl⟩
  rw [Nat.lt_one_iff.1 hj]
  intro counts hlevel
  cases hlevel
  rfl

/-- Two lengths that sum to `2^64` over no leaves misfit. Where additions fault the sum is not
reported, and where they wrap it is taken for zero and the array is built. -/
theorem rebuild_overflows :
    let counts := [0x8000000000000000, 0x8000000000000000]
    let c : Leveled := ⟨[], [counts]⟩
    c.FirstMisfit (.countMismatch 0 0x10000000000000000 0) ∧ (¬ ∀ i, c.FitsAt i) ∧
      c.rebuild .faults = .error (.fault .overflow) ∧
      ∃ a, c.rebuild .wraps = .ok a ∧ ¬ a.Consistent := by
  intro counts c
  have hmisfit : c.FirstMisfit (.countMismatch 0 0x10000000000000000 0) :=
    ⟨0, counts, rfl, by decide, fun j hj => absurd hj (Nat.not_lt_zero j), rfl⟩
  refine ⟨hmisfit, hmisfit.not_fits, rfl, .nested counts (.flat []), ?_, by decide⟩
  cbv

end ColumnFlow
