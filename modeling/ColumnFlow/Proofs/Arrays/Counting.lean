import ColumnFlow.Builtin
import ColumnFlow.Proofs.Arrays.Taking
import ColumnFlow.Proofs.Numbers.Bits

/-!
# Counting leaves

Counting the nonzero leaves of each outer entry and counting the entries that each of them holds
partition the array: every leaf, and every entry of the next level, is counted for exactly one
outer entry, however many entries without content lie in between.
-/

namespace ColumnFlow

open Float.Model (Format)
open Float.Model.UnpackedFloat

/-! ## Numbers other than zero -/

/-- Comparing with zero tells only the two zeros from the other numbers. -/
theorem beq_zero (u : Float.Model.UnpackedFloat) :
    u.beq (.zero .positive) = true ↔ ∃ s, u = .zero s := by
  cases u with
  | zero s => exact iff_of_true rfl ⟨s, rfl⟩
  | notANumber => exact iff_of_false Bool.false_ne_true nofun
  | infinity s => cases s <;> exact iff_of_false Bool.false_ne_true nofun
  | finite s m e hpos => cases s <;> exact iff_of_false Bool.false_ne_true nofun

/-- A number counts as true exactly if it is neither of the two zeros. NaN does. -/
theorem truth_iff {x : Float} : truth x = true ↔ magnitude x ≠ 0 := by
  obtain ⟨s, e, m, hfields, hbits⟩ := exists_fields x
  have hcompared : truth x = !((unpacked x).beq (.zero .positive)) := rfl
  have htop : e = -1#11 → e.toNat = 2047 := congrArg BitVec.toNat
  have hbottom : e = 0#11 ↔ e.toNat = 0 := BitVec.toNat_inj.symm
  rw [hcompared, Bool.not_eq_true', ← Bool.not_eq_true, beq_zero, not_iff_not, hfields,
    unpack_packComponents, hbits]
  split
  · next hinfinite =>
    refine iff_of_false ?_ (by rw [htop hinfinite]; omega)
    split <;> exact nofun
  · split
    · next hlow =>
      split
      · next hnone => exact iff_of_true ⟨s, rfl⟩ (by have := hbottom.1 hlow; omega)
      · next hsome => exact iff_of_false nofun (by omega)
    · next hhigh => exact iff_of_false nofun (by have := mt hbottom.2 hhigh; omega)

/-- The number of numbers other than zero. -/
def nonzeros (xs : List Float) : Nat := xs.countP fun x => decide (magnitude x ≠ 0)

theorem countTrue_eq (xs : List Float) : Builtin.countTrue xs = nonzeros xs := by
  rw [Builtin.countTrue, nonzeros, List.countP_eq_length_filter]
  refine congrArg List.length (List.filter_congr fun x _ => ?_)
  rw [Bool.eq_iff_iff, truth_iff, decide_eq_true_iff]

/-- The nonzeros of joined lists are those of each list together. -/
theorem nonzeros_flatMap {α : Type} (f : α → List Float) (xs : List α) :
    nonzeros (xs.flatMap f) = (xs.map fun x => nonzeros (f x)).sum := by
  rw [nonzeros, List.countP_flatMap]
  rfl

/-! ## Leaves of entries -/

mutual

/-- The numbers below an entry, at any depth. -/
def Entry.leaves : Entry → List Float
  | .number x => [x]
  | .list entries => Entry.leavesAll entries

def Entry.leavesAll : List Entry → List Float
  | [] => []
  | e :: es => e.leaves ++ Entry.leavesAll es

end

theorem Entry.leavesAll_eq (es : List Entry) : Entry.leavesAll es = es.flatMap Entry.leaves := by
  induction es with
  | nil => rfl
  | cons e es ih => rw [leavesAll, List.flatMap_cons, ih]

theorem Entry.leavesAll_flatten (rows : List (List Entry)) :
    Entry.leavesAll rows.flatten = rows.flatMap Entry.leavesAll := by
  induction rows with
  | nil => rfl
  | cons row rows ih =>
    rw [List.flatten_cons, List.flatMap_cons, ← ih, leavesAll_eq, leavesAll_eq, leavesAll_eq,
      List.flatMap_append]

namespace Jagged

variable {counts : List Nat} {content a : Jagged}

/-- What each outer entry of a nested array holds. -/
def rows (counts : List Nat) (content : Jagged) : List (List Entry) := cut counts content.entries

theorem entries_nested : (nested counts content).entries = (rows counts content).map .list := rfl

/-- What the outer entries hold is the next level, entry by entry. -/
theorem flatten_rows (hsum : total counts = content.length) :
    (rows counts content).flatten = content.entries :=
  flatten_cut (hsum.trans (length_entries content).symm)

/-- The rows are as long as the counts say. -/
theorem lengths_rows (hsum : total counts = content.length) :
    (rows counts content).map List.length = counts :=
  lengths_cut (hsum.trans (length_entries content).symm)

/-- The leaves below the entries, in turn, are those of the array. -/
theorem leavesAll_entries (hconsistent : a.Consistent) : Entry.leavesAll a.entries = a.leaves := by
  induction a with
  | flat xs =>
    rw [Entry.leavesAll_eq, entries, List.flatMap_map]
    exact List.flatMap_singleton' xs
  | nested counts content ih =>
    calc
      Entry.leavesAll (nested counts content).entries
          = (rows counts content).flatMap Entry.leavesAll := by
        rw [entries_nested, Entry.leavesAll_eq, List.flatMap_map]
        rfl
      _ = Entry.leavesAll content.entries := by
        rw [← Entry.leavesAll_flatten, flatten_rows hconsistent.1]
      _ = content.leaves := ih hconsistent.2

/-- No leaf is lost between the outer entries, and none belongs to two of them. -/
theorem flatMap_rows (hconsistent : (nested counts content).Consistent) :
    (rows counts content).flatMap Entry.leavesAll = content.leaves := by
  rw [← Entry.leavesAll_flatten, flatten_rows hconsistent.1, leavesAll_entries hconsistent.2]

/-- Cutting out an outer entry and dropping its levels gives the leaves below it. -/
theorem entryLeaves_eq {i : Nat} {row : List Entry}
    (hconsistent : (nested counts content).Consistent)
    (hplace : (rows counts content)[i]? = some row) :
    Builtin.entryLeaves (nested counts content) i = .ok (Entry.leavesAll row) := by
  have hfound : (nested counts content).entries[i]? = some (.list row) := by
    rw [entries_nested, List.getElem?_map, hplace]
    rfl
  have hinside : i < (nested counts content).length := by
    rw [← length_entries]
    exact (List.getElem?_eq_some_iff.1 hfound).1
  obtain ⟨v, e, hentry, hsame, hdenotes, -⟩ := exists_denotes hconsistent hinside
  cases hfound.symm.trans hsame
  cases v with
  | array b =>
    obtain ⟨hconsistent', rfl⟩ := hdenotes
    rw [Builtin.entryLeaves, hentry, leavesAll_entries hconsistent']
    rfl
  | _ => cases hdenotes

/-- The leaves of the entries are looked up entry by entry. -/
theorem mapM_entryLeaves (hconsistent : (nested counts content).Consistent) :
    (List.range counts.length).mapM (Builtin.entryLeaves (nested counts content)) =
      .ok ((rows counts content).map Entry.leavesAll) := by
  have hlength : (rows counts content).length = counts.length := length_cut _ _
  have heach : ∀ i ∈ List.range counts.length, Builtin.entryLeaves (nested counts content) i =
      .ok (Entry.leavesAll ((rows counts content).getD i [])) := by
    intro i hmem
    refine entryLeaves_eq hconsistent ?_
    have hinside : i < (rows counts content).length := hlength ▸ List.mem_range.1 hmem
    simp [hinside]
  rw [mapM_eq_ok_map heach]
  refine congrArg _ (List.ext_getElem (by simp [hlength]) fun i hbelow _ => ?_)
  have hinside : i < (rows counts content).length := by simpa [hlength] using hbelow
  simp [hinside]

end Jagged

/-! ## The functions -/

open Builtin Jagged

variable {counts : List Nat} {content : Jagged}

theorem countNonzero_flat (xs : List Float) (more : List Value) :
    countNonzero (.array (.flat xs) :: more) = .ok (.scalar (countFloat (nonzeros xs))) := by
  rw [← countTrue_eq]
  rfl

/-- The nonzeros of a nested array are counted row by row. -/
theorem countNonzero_nested (hconsistent : (nested counts content).Consistent) (more : List Value) :
    countNonzero (.array (nested counts content) :: more) = .ok (.array (.flat
      (((rows counts content).map fun row => nonzeros (Entry.leavesAll row)).map countFloat))) := by
  change (Answer.ofFaulty ((List.range counts.length).mapM (entryLeaves _)) >>= _) = _
  rw [mapM_entryLeaves hconsistent, List.map_map]
  refine congrArg (fun xs => Except.ok (Value.array (.flat xs))) ?_
  rw [List.map_map]
  exact List.map_congr_left fun row _ => congrArg countFloat (countTrue_eq _)

theorem sum_eq_total (counts : List Nat) : counts.sum = total counts := by
  induction counts with
  | nil => rfl
  | cons count counts ih => rw [List.sum_cons, total_cons, ih]

/-- Of a flat array the number of nonzero leaves and the number of leaves are given. Of a nested one
there is a count for each outer entry: of the nonzero leaves anywhere below it, and of the entries
that it holds. The outer entries share out the leaves and the entries of the next level, so that
the counts sum to the nonzero leaves of the whole array and to the length of the next level. -/
theorem counts_partition :
    (∀ xs more, countNonzero (.array (.flat xs) :: more) =
    .ok (.scalar (countFloat (nonzeros xs))) ∧
      num (.array (.flat xs) :: more) = .ok (.scalar (countFloat xs.length))) ∧
    ∀ counts content more, (nested counts content).Consistent →
      ∃ rows : List (List Entry), (nested counts content).entries = rows.map .list ∧
        (let found := rows.map fun row => nonzeros (Entry.leavesAll row)
        countNonzero (.array (nested counts content) :: more) =
          .ok (.array (.flat (found.map countFloat))) ∧
        rows.flatMap Entry.leavesAll = (nested counts content).leaves ∧
        found.sum = nonzeros (nested counts content).leaves) ∧
        let lengths := rows.map List.length
        num (.array (nested counts content) :: more) =
          .ok (.array (.flat (lengths.map countFloat))) ∧
        rows.flatten = content.entries ∧ lengths.sum = content.length := by
  constructor
  · exact fun xs more => ⟨countNonzero_flat xs more, rfl⟩
  · intro counts content more hconsistent
    have hleaves := flatMap_rows hconsistent
    have hlengths := lengths_rows hconsistent.1
    refine ⟨rows counts content, entries_nested, ⟨countNonzero_nested hconsistent more,
      hleaves, ?_⟩, ?_, flatten_rows hconsistent.1, ?_⟩
    · rw [← nonzeros_flatMap, hleaves]
      rfl
    · rw [hlengths]
      rfl
    · rw [hlengths, sum_eq_total, hconsistent.1]

/-- Entries without content at both levels, a zero of either sign, and NaN. -/
theorem counts_partition_empty_entries :
    let one := Float.ofBits 0x3FF0000000000000
    let zero := Float.ofBits 0x8000000000000000
    let nan := Float.ofBits 0x7FF8000000000000
    let content : Jagged := .nested [2, 0, 1, 1] (.flat [one, 0.0, nan, zero])
    let a : Jagged := .nested [0, 3, 0, 1] content
    a.Consistent ∧
      countNonzero [.array a] = .ok (.array (.flat ([0, 2, 0, 0].map countFloat))) ∧
      nonzeros a.leaves = 2 ∧
      num [.array a] = .ok (.array (.flat ([0, 3, 0, 1].map countFloat))) ∧ content.length = 4 := by
  intro one zero nan content a
  have hconsistent : a.Consistent := ⟨rfl, rfl, trivial⟩
  obtain ⟨-, hpartition⟩ := counts_partition
  obtain ⟨rows, hentries, ⟨hfound, -, hsum⟩, hlengths, -, hlength⟩ := hpartition _ _ [] hconsistent
  have hsame : rows = Jagged.rows [0, 3, 0, 1] content :=
    List.map_injective_iff.2 (fun _ _ => Entry.list.inj) hentries.symm
  subst hsame
  have hcounted : (Jagged.rows [0, 3, 0, 1] content).map (fun row =>
    nonzeros (Entry.leavesAll row)) =
      [0, 2, 0, 0] := by
    decide +kernel
  rw [hcounted] at hfound hsum
  exact ⟨hconsistent, hfound, hsum.symm, hlengths, hlength.symm⟩

end ColumnFlow
