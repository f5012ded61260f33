import ColumnFlow.Proofs.Arrays.Selecting
import ColumnFlow.Proofs.Stepwise

/-!
# Builtin functions keep arrays consistent

On values in which every array is consistent, builtin functions give values in which every array is
consistent, or refuse. They look up no entry that is not there, build no array whose lengths do not
add up, and stay within the integers that count the entries of their arguments.
-/

namespace ColumnFlow

/-! ## Values -/

mutual

/-- Every array of the value is consistent, those inside tuples too. -/
def Value.WellFormed : Value → Prop
  | .array a => a.Consistent
  | .tuple items => Value.WellFormedAll items
  | .scalar _ | .text _ | .nothing => True

def Value.WellFormedAll : List Value → Prop
  | [] => True
  | v :: vs => v.WellFormed ∧ Value.WellFormedAll vs

end

/-- The outer entries of an array can be counted by 64-bit integers, as those of any array that is
held in memory. -/
def Value.Countable : Value → Prop
  | .array a => (a.length : Int) ≤ Int64Range.greatest
  | _ => True

theorem Value.wellFormedAll_iff {vs : List Value} :
    Value.WellFormedAll vs ↔ ∀ v ∈ vs, v.WellFormed := by
  induction vs with
  | nil => simp [Value.WellFormedAll]
  | cons v vs ih => rw [Value.WellFormedAll, ih, List.forall_mem_cons]

theorem Value.Numbers.wellFormed {v : Value} (h : v.Numbers) : v.WellFormed := by
  cases h with
  | scalar => trivial
  | array hconsistent => exact hconsistent

/-! ## Combining arrays -/

namespace Jagged

variable {a b c : Jagged} {f : Float → Float → Float} {e : ShapeError}

/-- Two arrays are aligned to two columns. -/
theorem columns_of_broadcast_pair {aligned : Broadcast}
    (hok : broadcast [("lhs", a), ("rhs", b)] = .ok aligned) :
    ∃ left right, aligned.columns = [("lhs", left), ("rhs", right)] := by
  obtain ⟨target, -, ⟨-, hok'⟩ | ⟨_, _, _, e, -, -, -, -, herror⟩⟩ :=
    @broadcast_eq [("lhs", a), ("rhs", b)] (List.cons_ne_nil _ _)
  · cases hok.symm.trans hok'
    exact ⟨_, _, rfl⟩
  · cases hok.symm.trans herror

/-- Combining consistent arrays gives a consistent one. -/
theorem consistent_of_zip (hca : a.Consistent) (hcb : b.Consistent) (hok : a.zip f b = .ok c) :
    c.Consistent := by
  obtain ⟨d, hone, hleft, hright, rfl⟩ := (zip_eq_ok_iff hca hcb).1 hok
  have hconsistent : d.Consistent := by rcases hone with rfl | rfl <;> assumption
  exact (consistent_withLeaves (length_zipWith_stretch hconsistent hleft hright)).2 hconsistent

/-- Consistent arrays that cannot be combined differ in their shapes. -/
theorem shape_of_zip (hca : a.Consistent) (hcb : b.Consistent) {e : BuildError}
    (herror : a.zip f b = .error e) :
    ∃ cause, e = .shape cause ∧
      ∀ level expected found, cause ≠ .countMismatch level expected found := by
  let inputs := [("lhs", a), ("rhs", b)]
  obtain ⟨target, hfirst, ⟨hall, -⟩ | ⟨_, input, _, e', -, -, -, hmisfit, hfailed⟩⟩ :=
    @broadcast_eq inputs (List.cons_ne_nil _ _)
  · have hone : target.2 = a ∨ target.2 = b :=
      (List.mem_pair.1 hfirst.mem).imp (congrArg Prod.snd) (congrArg Prod.snd)
    have hleft : a.Fits target.2 := hall ("lhs", a) List.mem_cons_self
    have hright : b.Fits target.2 := hall ("rhs", b) (List.mem_cons_of_mem _ List.mem_cons_self)
    have hok : a.zip f b = .ok _ := (zip_eq_ok_iff hca hcb).2 ⟨target.2, hone, hleft, hright, rfl⟩
    cases hok.symm.trans herror
  · have hsame : a.zip f b = .error (.shape e') := by
      rw [Jagged.zip, hfailed]
      rfl
    cases hsame.symm.trans herror
    refine ⟨e', rfl, fun level expected found heq => ?_⟩
    cases hmisfit <;> cases heq

end Jagged

/-! ## Operators -/

open Answer

variable {bounded : Prop} {args : List Value} {v w : Value} {a : Jagged}

theorem mapNumbers_keeps (f : Float → Float) (h : v.WellFormed) :
    (v.mapNumbers f).Keeps bounded Value.WellFormed := by
  cases v with
  | scalar x => trivial
  | array a => exact (Jagged.consistent_map f a).2 h
  | _ => exact id

/-- Operators on two values keep arrays consistent. -/
theorem zip_keeps (f : Float → Float → Float) (h : v.WellFormed) (h' : w.WellFormed) :
    (v.zip f w).Keeps bounded Value.WellFormed := by
  cases v with
  | scalar x =>
    cases w with
    | scalar y => trivial
    | array b => exact (Jagged.consistent_map _ b).2 h'
    | _ => exact id
  | array a =>
    cases w with
    | scalar y => exact (Jagged.consistent_map _ a).2 h
    | array b =>
      change (ofBuild ((a.zip f b).map .array)).Keeps bounded Value.WellFormed
      cases hcombined : a.zip f b with
      | ok c => exact Jagged.consistent_of_zip h h' hcombined
      | error e =>
        obtain ⟨cause, rfl, hother⟩ := Jagged.shape_of_zip h h' hcombined
        cases cause with
        | countMismatch level expected found => exact absurd rfl (hother level expected found)
        | _ => exact id
    | _ => exact id
  | _ => exact id

/-! ## Arguments -/

theorem argument_keeps (name : String) (i : Nat) :
    (argument name args i).Keeps bounded fun v => v ∈ args := by
  unfold argument
  cases hfound : args[i]? with
  | none => exact id
  | some v => exact List.mem_of_getElem? hfound

/-- An argument that has to be an array is one of those given. -/
theorem arrayArgument_keeps (name : String) (i : Nat) :
    (arrayArgument name args i).Keeps bounded fun a => .array a ∈ args := by
  unfold arrayArgument
  refine (argument_keeps name i).bind fun v hmem => ?_
  cases v with
  | array a => exact hmem
  | _ => exact id

/-! ## Subscripts -/

section

open Int64Range

/-- The parts of a slice are whole numbers within the range of 64-bit integers. -/
theorem wholePart_keeps :
    v.wholePart.Keeps bounded fun part => ∀ n, part = some n → least ≤ n := by
  unfold Value.wholePart
  cases v with
  | nothing => exact fun n heq => by cases heq
  | scalar x =>
    dsimp only
    cases wholeNumber? x with
    | none => exact id
    | some n =>
      intro m heq
      cases heq
      exact Int.le_max_left _ _
  | _ => exact id

/-- Slicing keeps arrays consistent. -/
theorem slice_keeps {s : Slice} (hranged : s.Ranged) (hconsistent : a.Consistent) :
    (a.slice s).Keeps ((a.length : Int) ≤ greatest) Value.WellFormed := by
  refine (Slice.positions_keeps hranged).bind fun places hinside => ?_
  obtain ⟨b, htaken, hconsistent', -⟩ := Jagged.exists_take hconsistent hinside
  exact (keeps_of_ok htaken hconsistent').bind fun c h => h

/-- The entry at a position, or a refusal outside the array. -/
theorem entryAt_keeps (i p : Int) (hconsistent : a.Consistent) :
    (if p < 0 ∨ (a.length : Int) ≤ p then
      .refuse (.indexOutOfRange i a.length)
    else do
      match ← ofFaulty (a.entry? p.toNat) with
      | some v => return v
      | none => .refuse (.indexOutOfRange i a.length) : Answer Value).Keeps
      ((a.length : Int) ≤ greatest) Value.WellFormed := by
  split
  · exact id
  · next hinside =>
    obtain ⟨v, hfound, hnumbers⟩ := Jagged.exists_entry hconsistent (by omega : p.toNat < a.length)
    rw [hfound]
    exact hnumbers.wellFormed

/-- An entry of a consistent array is consistent. -/
theorem at_keeps {i : Int} (hwhole : least ≤ i) (hconsistent : a.Consistent) :
    (a.at i).Keeps ((a.length : Int) ≤ greatest) Value.WellFormed := by
  unfold Jagged.at
  have hposition : (if i < 0 then ofFaulty (add i a.length) else pure i : Answer Int).Keeps
      ((a.length : Int) ≤ greatest) fun _ => True := by
    split
    · by_cases hfits : least ≤ i + a.length ∧ i + a.length ≤ greatest
      · refine keeps_of_ok (a := i + a.length) ?_ trivial
        rw [add, add?, if_pos hfits]
      · rw [add, add?, if_neg hfits]
        intro hbounded
        omega
    · trivial
  dsimp only
  split
  · next hnegative =>
    rw [if_pos hnegative] at hposition
    exact hposition.bind fun p _ => entryAt_keeps i p hconsistent
  · exact entryAt_keeps i i hconsistent

/-- Subscripts of every kind keep arrays consistent. -/
theorem select_keeps (hconsistent : a.Consistent) (subscript : Value) :
    (a.select subscript).Keeps ((a.length : Int) ≤ greatest) Value.WellFormed := by
  unfold Jagged.select
  split
  · refine wholePart_keeps.bind fun lower hfirst => ?_
    refine wholePart_keeps.bind fun upper hlast => ?_
    refine Keeps.bind (P := fun _ => True) (wholePart_keeps.mono fun _ _ => trivial)
      fun step _ => ?_
    exact slice_keeps ⟨hfirst, hlast⟩ hconsistent
  · refine wholePart_keeps.bind fun part hwhole => ?_
    cases part with
    | none => exact id
    | some i => exact at_keeps (hwhole i rfl) hconsistent
  · exact id

end

/-! ## Functions -/

namespace Builtin

variable (h : ∀ v ∈ args, v.WellFormed)

include h

theorem binary_keeps (op : BinaryOp) : (binary op args).Keeps bounded Value.WellFormed :=
  (argument_keeps _ 0).bind fun v hleft => (argument_keeps _ 1).bind fun w hright =>
    zip_keeps op.kernel (h v hleft) (h w hright)

theorem elementwise_keeps (name : String) (f : Float → Float) :
    (elementwise name f args).Keeps bounded Value.WellFormed :=
  (argument_keeps name 0).bind fun v hmem => mapNumbers_keeps f (h v hmem)

theorem slice_keeps :
    (slice args).Keeps (∀ v ∈ args, v.Countable) Value.WellFormed :=
  (arrayArgument_keeps "slice" 0).bind fun a hmem => (argument_keeps "slice" 1).bind fun v _ =>
    (select_keeps (h (.array a) hmem) v).imp fun hcountable => hcountable (.array a) hmem

/-- Counting nonzeros gives a consistent array. -/
theorem countNonzero_keeps : (countNonzero args).Keeps bounded Value.WellFormed := by
  refine (arrayArgument_keeps "count_nonzero" 0).bind fun a hmem => ?_
  have hconsistent : a.Consistent := h (.array a) hmem
  cases a with
  | flat xs => trivial
  | nested counts content =>
    have heach : ∀ i ∈ List.range counts.length,
        ∃ leaves, entryLeaves (.nested counts content) i = .ok leaves := by
      intro i hinside
      obtain ⟨v, hfound, -⟩ := Jagged.exists_entry hconsistent (List.mem_range.1 hinside)
      unfold entryLeaves
      rw [hfound]
      exact ⟨_, rfl⟩
    obtain ⟨leaves, hall⟩ := exists_mapM_eq_ok heach
    exact Keeps.bind (P := fun _ => True) (keeps_of_ok hall trivial) fun _ _ => trivial

omit h in
theorem num_keeps : (num args).Keeps bounded Value.WellFormed := by
  refine (arrayArgument_keeps "num" 0).bind fun a _ => ?_
  cases a with
  | flat xs => trivial
  | nested counts content => trivial

/-- Every builtin function keeps arrays consistent. -/
theorem all_keeps {entry : String × (List Value → Answer Value)} (hmem : entry ∈ all) :
    (entry.2 args).Keeps (∀ v ∈ args, v.Countable) Value.WellFormed := by
  unfold all at hmem
  rw [List.mem_append, List.mem_append] at hmem
  rcases hmem with (hoperator | hoperator) | hnamed
  · obtain ⟨op, -, rfl⟩ := List.mem_map.1 hoperator
    exact binary_keeps h op
  · obtain ⟨op, -, rfl⟩ := List.mem_map.1 hoperator
    exact elementwise_keeps h _ _
  · simp only [List.mem_cons, List.not_mem_nil, or_false] at hnamed
    rcases hnamed with rfl | rfl | rfl | rfl | rfl | rfl | rfl
    · exact elementwise_keeps h _ _
    · exact elementwise_keeps h _ _
    · exact elementwise_keeps h _ _
    · exact elementwise_keeps h _ _
    · exact slice_keeps h
    · exact countNonzero_keeps h
    · exact num_keeps

end Builtin

end ColumnFlow
