import ColumnFlow.Proofs.Arrays.Pairwise
import ColumnFlow.Slice

/-!
# Selecting entries

The entries of a consistent array are cut from its content at places that are there, so that
selecting any of them gives a consistent array again. Slices select nothing but entries that are
there, however large their bounds and steps are.
-/

namespace ColumnFlow

/-! ## Places in the content -/

theorem elementAt_eq {α : Type} {xs : List α} {i : Nat} {x : α} (hfound : xs[i]? = some x) :
    elementAt xs i = .ok x := by
  unfold elementAt
  rw [hfound]

namespace Jagged

variable {a : Jagged} {counts indices : List Nat} {i : Nat}

theorem getElem?_getD (hinside : i < counts.length) : counts[i]? = some (counts.getD i 0) := by
  simp [hinside]

/-- The entry at a place is held by the content, behind the entries before it. -/
theorem total_take_add_le (hinside : i < counts.length) :
    total (counts.take i) + counts.getD i 0 ≤ total counts := by
  induction counts generalizing i with
  | nil => cases hinside
  | cons count counts ih =>
    cases i with
    | zero => simp
    | succ i =>
      have hrest := ih (Nat.lt_of_succ_lt_succ hinside)
      simp only [List.take_succ_cons, total_cons, List.getD_cons_succ]
      omega

theorem total_take_le (counts : List Nat) (i : Nat) : total (counts.take i) ≤ total counts := by
  have hsplit := congrArg total (List.take_append_drop i counts)
  rw [total_append] at hsplit
  omega

/-- The sums that locate entries in the content do not exceed the number of entries it has, at
every level. -/
def SumsInside : Jagged → Prop
  | .flat _ => True
  | .nested counts content =>
    (∀ i, total (counts.take i) ≤ content.length) ∧ content.SumsInside

theorem sumsInside_of_consistent (hconsistent : a.Consistent) : a.SumsInside := by
  induction a with
  | flat xs => trivial
  | nested counts content ih =>
    exact ⟨fun i => hconsistent.1 ▸ total_take_le counts i, ih hconsistent.2⟩

theorem total_map_length {α : Type} (lists : List (List α)) :
    total (lists.map List.length) = lists.flatten.length := by
  induction lists with
  | nil => rfl
  | cons l ls ih => simp [ih]

/-- The places in the content of an outer entry. -/
def placesOf (counts : List Nat) (i : Nat) : List Nat :=
  List.range' (total (counts.take i)) (counts.getD i 0)

theorem entryPlaces_eq (hinside : i < counts.length) :
    entryPlaces counts i = .ok (placesOf counts i) := by
  unfold entryPlaces
  rw [elementAt_eq (getElem?_getD hinside)]
  rfl

theorem lt_total_of_mem_placesOf {place : Nat} (hinside : i < counts.length)
    (hmem : place ∈ placesOf counts i) : place < total counts := by
  have hbelow := total_take_add_le hinside
  obtain ⟨_, hupper⟩ := List.mem_range'_1.1 hmem
  omega

/-! ## Outer entries -/

/-- Entries that are there can be selected, and their lengths add up. -/
theorem exists_take (hconsistent : a.Consistent) (hinside : ∀ i ∈ indices, i < a.length) :
    ∃ b, a.take indices = .ok b ∧ b.Consistent ∧ b.length = indices.length := by
  induction a generalizing indices with
  | flat xs =>
    have heach : ∀ i ∈ indices, ∃ x, elementAt xs i = .ok x :=
      fun i hmem => ⟨_, elementAt_eq (List.getElem?_eq_getElem (hinside i hmem))⟩
    obtain ⟨ys, hselected⟩ := exists_mapM_eq_ok heach
    refine ⟨.flat ys, ?_, trivial, length_of_mapM_eq_ok hselected⟩
    rw [take, hselected]
    rfl
  | nested counts content ih =>
    have hkept : indices.mapM (elementAt counts) = .ok (indices.map fun i => counts.getD i 0) :=
      mapM_eq_ok_map fun i hmem => elementAt_eq (getElem?_getD (hinside i hmem))
    have hplaces : indices.mapM (entryPlaces counts) = .ok (indices.map (placesOf counts)) :=
      mapM_eq_ok_map fun i hmem => entryPlaces_eq (hinside i hmem)
    have hbelow : ∀ p ∈ (indices.map (placesOf counts)).flatten, p < content.length := by
      intro p hmem
      obtain ⟨list, hinner, hmem⟩ := List.mem_flatten.1 hmem
      obtain ⟨i, hindex, rfl⟩ := List.mem_map.1 hinner
      rw [← hconsistent.1]
      exact lt_total_of_mem_placesOf (hinside i hindex) hmem
    obtain ⟨b, htaken, hconsistent', hlength⟩ := ih hconsistent.2 hbelow
    refine ⟨.nested (indices.map fun i => counts.getD i 0) b, ?_, ⟨?_, hconsistent'⟩, ?_⟩
    · rw [take, hkept, hplaces, ok_bind, ok_bind, htaken]
      rfl
    · rw [hlength, ← total_map_length, List.map_map]
      refine congrArg total (List.map_congr_left fun i _ => ?_)
      exact List.length_range'.symm
    · exact List.length_map _

/-- The outer entry at a place that is there is a number or a consistent array. -/
theorem exists_entry (hconsistent : a.Consistent) (hinside : i < a.length) :
    ∃ v, a.entry? i = .ok (some v) ∧ v.Numbers := by
  unfold entry?
  rw [if_pos hinside]
  cases a with
  | flat xs =>
    dsimp only
    rw [elementAt_eq (List.getElem?_eq_getElem hinside)]
    exact ⟨_, rfl, .scalar⟩
  | nested counts content =>
    have hbelow : ∀ p ∈ placesOf counts i, p < content.length := fun p hmem =>
      hconsistent.1 ▸ lt_total_of_mem_placesOf hinside hmem
    obtain ⟨b, htaken, hconsistent', -⟩ := exists_take hconsistent.2 hbelow
    dsimp only
    rw [entryPlaces_eq hinside, ok_bind, htaken]
    exact ⟨_, rfl, .array hconsistent'⟩

end Jagged

/-! ## Answers -/

/-- The error says that lengths do not add up. -/
def TaskError.IsCountMismatch : TaskError → Prop
  | .call (.shape (.countMismatch ..)) => True
  | _ => False

namespace Answer

variable {α β : Type} {bounded : Prop} {P : α → Prop} {Q : β → Prop}

/-- What is computed has the property, it is no error that lengths do not add up, and there is no
fault within the bounds. -/
def Keeps (bounded : Prop) (P : α → Prop) : Answer α → Prop
  | .ok a => P a
  | .error (.fault _) => ¬ bounded
  | .error (.error cause) => ¬ cause.IsCountMismatch

theorem Keeps.bind {x : Answer α} {f : α → Answer β} (h : x.Keeps bounded P)
    (hnext : ∀ a, P a → (f a).Keeps bounded Q) : (x >>= f : Answer β).Keeps bounded Q := by
  match x with
  | .ok a => exact hnext a h
  | .error (.fault _) => exact h
  | .error (.error _) => exact h

theorem Keeps.mono {x : Answer α} {Q : α → Prop} (h : x.Keeps bounded P)
    (hweaker : ∀ a, P a → Q a) : x.Keeps bounded Q := by
  match x with
  | .ok a => exact hweaker a h
  | .error (.fault _) => exact h
  | .error (.error _) => exact h

theorem Keeps.imp {x : Answer α} {bounded' : Prop} (h : x.Keeps bounded P)
    (hwithin : bounded' → bounded) : x.Keeps bounded' P := by
  match x with
  | .ok a => exact h
  | .error (.fault _) => exact fun hinside => h (hwithin hinside)
  | .error (.error _) => exact h

theorem keeps_of_ok {x : Except Fault α} {a : α} (hok : x = .ok a) (h : P a) :
    (ofFaulty x).Keeps bounded P := by
  rw [hok]
  exact h

theorem ofFaulty_bind (x : Except Fault α) (f : α → Except Fault β) :
    (ofFaulty (x >>= f) : Answer β) = (ofFaulty x >>= fun a => ofFaulty (f a) : Answer β) := by
  cases x with
  | error e => rfl
  | ok a => rfl

end Answer

/-! ## Slices -/

namespace Slice

open Int64Range

variable {length low high bound stop step i : Int} {n place : Nat}

/-- A bound is moved to the entries. Only with more entries than positions can count is there no
place for it. -/
theorem resolve_keeps (hwhole : least ≤ bound) (hnatural : 0 ≤ length) (hrange : low ≤ high) :
    (Answer.ofFaulty (resolve length low high bound)).Keeps (length ≤ greatest)
      fun n => low ≤ n ∧ n ≤ high := by
  have hclamped (n : Int) : (Answer.ofFaulty (clamp n low high)).Keeps (length ≤ greatest)
      fun n => low ≤ n ∧ n ≤ high := by
    refine Answer.keeps_of_ok (if_pos hrange) ⟨by omega, by omega⟩
  unfold resolve
  dsimp only
  by_cases hnegative : bound < 0
  · rw [if_pos hnegative, Answer.ofFaulty_bind]
    refine Answer.Keeps.bind (P := fun _ => True) ?_ fun n _ => hclamped n
    by_cases hfits : least ≤ bound + length ∧ bound + length ≤ greatest
    · refine Answer.keeps_of_ok (a := bound + length) ?_ trivial
      rw [add, add?, if_pos hfits]
    · rw [add, add?, if_neg hfits]
      intro hbounded
      omega
  · rw [if_neg hnegative]
    exact hclamped bound

/-- Going up from a natural number, the positions are in front of the end. -/
theorem lt_of_mem_ascending (hpositive : 0 < step) (hstart : 0 ≤ i)
    (hmem : place ∈ ascending stop step hpositive i) : (place : Int) < stop := by
  fun_induction ascending stop step hpositive i with
  | case1 i hbelow next hfound ih =>
    rcases List.mem_cons.1 hmem with rfl | hlater
    · omega
    · refine ih ?_ hlater
      simp only [add?] at hfound
      split at hfound
      · cases hfound
        omega
      · cases hfound
  | case2 i hbelow =>
    rw [List.mem_singleton.1 hmem]
    omega
  | case3 => cases hmem

/-- Going down, the positions are natural numbers and not above the first. -/
theorem le_of_mem_descending (hnegative : step < 0) (hlast : -1 ≤ stop) (hstart : i ≤ high)
    (hmem : place ∈ descending stop step hnegative i) : (place : Int) ≤ high := by
  fun_induction descending stop step hnegative i with
  | case1 i habove next hfound ih =>
    rcases List.mem_cons.1 hmem with rfl | hlater
    · omega
    · refine ih ?_ hlater
      simp only [add?] at hfound
      split at hfound
      · cases hfound
        omega
      · cases hfound
  | case2 i habove =>
    rw [List.mem_singleton.1 hmem]
    omega
  | case3 => cases hmem

/-- The bounds are 64-bit integers. -/
def Ranged (s : Slice) : Prop :=
  (∀ bound, s.lower = some bound → least ≤ bound) ∧ ∀ bound, s.upper = some bound → least ≤ bound

/-- A bound that may be left out. -/
theorem resolve?_keeps {part : Option Int} {other : Int}
    (hwhole : ∀ bound, part = some bound → least ≤ bound) (hnatural : 0 ≤ length)
    (hrange : low ≤ high) (hgiven : low ≤ other ∧ other ≤ high) :
    (Answer.ofFaulty ((part.map (resolve length low high)).getD (pure other))).Keeps
      (length ≤ greatest) fun n => low ≤ n ∧ n ≤ high := by
  cases part with
  | none => exact hgiven
  | some bound => exact resolve_keeps (hwhole bound rfl) hnatural hrange

/-- A slice selects entries that are there. -/
theorem positions_keeps {s : Slice} (hranged : s.Ranged) :
    (s.positions n).Keeps ((n : Int) ≤ greatest) fun places => ∀ p ∈ places, p < n := by
  have hnatural : (0 : Int) ≤ n := Int.natCast_nonneg n
  unfold positions
  dsimp only
  split
  · next hup =>
    rw [Answer.ofFaulty_bind]
    refine (resolve?_keeps hranged.1 hnatural hnatural ⟨Int.le_refl _, hnatural⟩).bind ?_
    intro start hfirst
    rw [Answer.ofFaulty_bind]
    refine (resolve?_keeps hranged.2 hnatural hnatural ⟨hnatural, Int.le_refl _⟩).bind ?_
    intro stop hlast
    refine Answer.keeps_of_ok rfl fun p hmem => ?_
    have hbelow := lt_of_mem_ascending hup hfirst.1 hmem
    omega
  · split
    · next hdown =>
      have hrange : (-1 : Int) ≤ n - 1 := by omega
      rw [Answer.ofFaulty_bind]
      refine (resolve?_keeps hranged.1 hnatural hrange ⟨hrange, Int.le_refl _⟩).bind ?_
      intro start hfirst
      rw [Answer.ofFaulty_bind]
      refine (resolve?_keeps hranged.2 hnatural hrange ⟨Int.le_refl _, hrange⟩).bind ?_
      intro stop hlast
      refine Answer.keeps_of_ok rfl fun p hmem => ?_
      have hbelow := le_of_mem_descending hdown hlast.1 hfirst.2 hmem
      omega
    · exact id

end Slice

end ColumnFlow
