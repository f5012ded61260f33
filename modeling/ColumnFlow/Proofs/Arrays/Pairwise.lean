import ColumnFlow.Builtin
import ColumnFlow.Evaluate
import ColumnFlow.Proofs.Arrays.Broadcasting

/-!
# Combining values two at a time

Two arrays are combined over the deeper of them. Over any array that both fit, the result is the
combination of the two stretched operands, so nothing is lost by stretching late.
-/

namespace ColumnFlow

/-! ## Arrays -/

namespace Jagged

variable {a b c t : Jagged} {f : Float → Float → Float}

theorem map_eq_withLeaves (g : Float → Float) (a : Jagged) :
    a.map g = a.withLeaves (a.leaves.map g) := by
  rw [← map_withLeaves, withLeaves_leaves]

theorem fits_map {g : Float → Float} : (a.map g).Fits t ↔ a.Fits t := by
  rw [map_eq_withLeaves]
  exact fits_withLeaves (List.length_map g)

theorem stretch_map_eq {g : Float → Float} : (a.map g).stretch t = (a.stretch t).map g := by
  rw [map_eq_withLeaves, stretch_map, withLeaves_leaves]

theorem length_zipWith_stretch (hconsistent : c.Consistent) (hleft : a.Fits c) (hright : b.Fits c) :
    (List.zipWith f (a.stretch c) (b.stretch c)).length = c.leaves.length := by
  rw [List.length_zipWith, length_stretch hconsistent hleft, length_stretch hconsistent hright,
    Nat.min_self]

/-- Stretching a combination combines the stretched operands. -/
theorem stretch_zipWith_stretch (hconsistent : c.Consistent) (hleft : a.Fits c) (hright : b.Fits c)
    (hfits : c.Fits t) :
    (c.withLeaves (List.zipWith f (a.stretch c) (b.stretch c))).stretch t =
      List.zipWith f (a.stretch t) (b.stretch t) := by
  have hsame : (a.stretch c).length = (b.stretch c).length :=
    (length_stretch hconsistent hleft).trans (length_stretch hconsistent hright).symm
  rw [stretch_zipWith f hsame, stretch_trans hleft hfits, stretch_trans hright hfits]

/-- Two arrays are combined over the one that both fit. -/
theorem zip_eq_ok_iff {v : Jagged} (hca : a.Consistent) (hcb : b.Consistent) :
    a.zip f b = .ok v ↔ ∃ c, (c = a ∨ c = b) ∧ a.Fits c ∧ b.Fits c ∧
      v = c.withLeaves (List.zipWith f (a.stretch c) (b.stretch c)) := by
  let inputs := [("lhs", a), ("rhs", b)]
  have hoperand {i : String × Jagged} (hmem : i ∈ inputs) : i.2 = a ∨ i.2 = b :=
    (List.mem_pair.1 hmem).imp (congrArg Prod.snd) (congrArg Prod.snd)
  have hnonempty : inputs ≠ [] := List.cons_ne_nil _ _
  obtain ⟨target, hfirst, ⟨hall, hok⟩ | ⟨before, input, after, e, hsplit, -, hunfit, -, herror⟩⟩ :=
    broadcast_eq hnonempty
  · have hone := hoperand hfirst.mem
    have hleft : a.Fits target.2 := hall ("lhs", a) (by simp [inputs])
    have hright : b.Fits target.2 := hall ("rhs", b) (by simp [inputs])
    generalize target.2 = c at *
    have hconsistent : c.Consistent := by rcases hone with rfl | rfl <;> assumption
    have hcombined : a.zip f b =
      .ok (c.withLeaves (List.zipWith f (a.stretch c) (b.stretch c))) := by
      rw [Jagged.zip, hok]
      exact rebuild_withLeaves hconsistent (length_zipWith_stretch hconsistent hleft hright)
    rw [hcombined]
    constructor
    · intro h
      exact ⟨c, hone, hleft, hright, (Except.ok.inj h).symm⟩
    · rintro ⟨d, hone', hleft', hright', rfl⟩
      have hdown : c.Fits d := by rcases hone with rfl | rfl <;> assumption
      have hup : d.Fits c := by rcases hone' with rfl | rfl <;> assumption
      have hsame : c.lengths = d.lengths := hdown.lengths_eq hup.depth_le
      rw [stretch_congr hsame, stretch_congr hsame, withLeaves_congr hsame]
  · have hfailed : a.zip f b = .error (.shape e) := by
      rw [Jagged.zip, herror]
      rfl
    refine iff_of_false (fun h => by cases hfailed.symm.trans h) ?_
    rintro ⟨d, -, hleft, hright, -⟩
    have hfits {i : String × Jagged} (hmem : i ∈ inputs) : i.2.Fits d := by
      rcases hoperand hmem with heq | heq <;> rwa [heq]
    have hinside : input ∈ inputs := by simp [hsplit]
    exact hunfit ((hfits hinside).of_fits (hfits hfirst.mem) (hfirst.depth_le input hinside))

/-- Of two arrays that fit a third one, both fit one of them. -/
theorem exists_fits (hleft : a.Fits t) (hright : b.Fits t) :
    ∃ c, (c = a ∨ c = b) ∧ a.Fits c ∧ b.Fits c ∧ c.Fits t := by
  rcases Nat.le_total a.depth b.depth with hle | hle
  · exact ⟨b, .inr rfl, hleft.of_fits hright hle, Fits.refl b, hright⟩
  · exact ⟨a, .inl rfl, Fits.refl a, hright.of_fits hleft hle, hleft⟩

end Jagged

/-! ## Values -/

/-- A number or a consistent array. -/
inductive Value.Numbers : Value → Prop where
  | scalar {x : Float} : Numbers (.scalar x)
  | array {a : Jagged} : a.Consistent → Numbers (.array a)

/-- What a value is over the leaves of an array that it fits: the number itself, or the stretched
leaves. -/
inductive Spreads (t : Jagged) : Value → Operand → Prop where
  | scalar {x : Float} : Spreads t (.scalar x) (.scalar x)
  | array {a : Jagged} : a.Fits t → Spreads t (.array a) (.column (a.stretch t))

variable {t : Jagged} {v w : Value} {z : Operand}

theorem Spreads.self (a : Jagged) : Spreads a (.array a) (.column a.leaves) := by
  have hwhole : a.stretch a = a.leaves := Jagged.stretch_eq_leaves (Nat.le_refl _)
  exact hwhole ▸ .array (Jagged.Fits.refl a)

theorem Value.Numbers.exists_spreads (h : v.Numbers) : ∃ t x, Spreads t v x := by
  cases h with
  | scalar => exact ⟨.flat [], _, .scalar⟩
  | array _ => exact ⟨_, _, .self _⟩

/-- A function runs on the numbers of a value before or after it is stretched. -/
theorem mapNumbers_spreads (f : Float → Float) :
    (∃ u, v.mapNumbers f = .ok u ∧ Spreads t u z) ↔ ∃ x, Spreads t v x ∧ z = x.map f := by
  constructor
  · rintro ⟨u, hok, hspreads⟩
    cases v with
    | scalar x =>
      cases hok
      cases hspreads
      exact ⟨_, .scalar, rfl⟩
    | array a =>
      cases hok
      cases hspreads with
      | array hfits =>
        rw [Jagged.fits_map] at hfits
        exact ⟨_, .array hfits, congrArg Operand.column Jagged.stretch_map_eq⟩
    | _ => cases hok
  · rintro ⟨x, hspreads, rfl⟩
    cases hspreads with
    | scalar => exact ⟨_, rfl, .scalar⟩
    | array hfits =>
      refine ⟨_, rfl, ?_⟩
      rw [Operand.map, ← Jagged.stretch_map_eq]
      exact .array (Jagged.fits_map.2 hfits)

theorem zip_arrays_spreads (f : Float → Float → Float) {a b : Jagged} (hca : a.Consistent)
    (hcb : b.Consistent) :
    (∃ u, (Value.array a).zip f (.array b) = .ok u ∧ Spreads t u z) ↔
      a.Fits t ∧ b.Fits t ∧ z = .column (List.zipWith f (a.stretch t) (b.stretch t)) := by
  have hconsistent {c : Jagged} (hone : c = a ∨ c = b) : c.Consistent := by
    rcases hone with rfl | rfl <;> assumption
  constructor
  · rintro ⟨u, hok, hspreads⟩
    obtain ⟨d, hcombined, rfl⟩ := map_eq_ok_iff.1 (mapError_eq_ok_iff.1 hok)
    obtain ⟨c, hone, hleft, hright, rfl⟩ := (Jagged.zip_eq_ok_iff hca hcb).1 hcombined
    cases hspreads with
    | array hfits =>
      rw [Jagged.fits_withLeaves
        (Jagged.length_zipWith_stretch (hconsistent hone) hleft hright)] at hfits
      refine ⟨hleft.trans hfits, hright.trans hfits, ?_⟩
      rw [Jagged.stretch_zipWith_stretch (hconsistent hone) hleft hright hfits]
  · rintro ⟨hleft, hright, rfl⟩
    obtain ⟨c, hone, hleft', hright', hfits⟩ := Jagged.exists_fits hleft hright
    have hok := (Jagged.zip_eq_ok_iff (f := f) hca hcb).2 ⟨c, hone, hleft', hright', rfl⟩
    refine ⟨_, mapError_eq_ok_iff.2 (map_eq_ok_iff.2 ⟨_, hok, rfl⟩), ?_⟩
    rw [← Jagged.stretch_zipWith_stretch (hconsistent hone) hleft' hright' hfits]
    refine .array ?_
    rwa [Jagged.fits_withLeaves
      (Jagged.length_zipWith_stretch (hconsistent hone) hleft' hright')]

/-- Two values are combined before or after they are stretched. -/
theorem zip_spreads (f : Float → Float → Float) (hv : v.Numbers) (hw : w.Numbers) :
    (∃ u, v.zip f w = .ok u ∧ Spreads t u z) ↔
      ∃ x y, Spreads t v x ∧ Spreads t w y ∧ z = x.zip f y := by
  -- A number on one side makes the operator a function of the other side, which is mapped over it.
  constructor
  · rintro ⟨u, hok, hspreads⟩
    cases hv with
    | @scalar x =>
      cases hw with
      | scalar =>
        cases hok
        cases hspreads
        exact ⟨_, _, .scalar, .scalar, rfl⟩
      | @array b hcb =>
        obtain ⟨y, hright, rfl⟩ := (mapNumbers_spreads (v := .array b) (f x)).1 ⟨u, hok, hspreads⟩
        exact ⟨_, y, .scalar, hright, by cases hright; rfl⟩
    | @array a hca =>
      cases hw with
      | @scalar y =>
        obtain ⟨x, hleft, rfl⟩ :=
          (mapNumbers_spreads (v := .array a) fun x => f x y).1 ⟨u, hok, hspreads⟩
        exact ⟨x, _, hleft, .scalar, by cases hleft; rfl⟩
      | array hcb =>
        obtain ⟨hleft, hright, rfl⟩ := (zip_arrays_spreads f hca hcb).1 ⟨u, hok, hspreads⟩
        exact ⟨_, _, .array hleft, .array hright, rfl⟩
  · rintro ⟨x, y, hleft, hright, rfl⟩
    cases hv with
    | scalar =>
      cases hleft
      cases hw with
      | scalar =>
        cases hright
        exact ⟨_, rfl, .scalar⟩
      | array hcb =>
        cases hright with
        | array hfits => exact (mapNumbers_spreads _).2 ⟨_, .array hfits, rfl⟩
    | array hca =>
      cases hleft with
      | array hfits =>
        cases hw with
        | scalar =>
          cases hright
          exact (mapNumbers_spreads _).2 ⟨_, .array hfits, rfl⟩
        | array hcb =>
          cases hright with
          | array hfits' => exact (zip_arrays_spreads f hca hcb).2 ⟨hfits, hfits', rfl⟩

theorem Value.Numbers.mapNumbers {f : Float → Float} {u : Value} (hv : v.Numbers)
    (hok : v.mapNumbers f = .ok u) : u.Numbers := by
  cases hv with
  | scalar =>
    cases hok
    exact .scalar
  | array hca =>
    cases hok
    exact .array ((Jagged.consistent_map f _).2 hca)

theorem Value.Numbers.zip {f : Float → Float → Float} {u : Value} (hv : v.Numbers)
    (hw : w.Numbers) (hok : v.zip f w = .ok u) : u.Numbers := by
  cases hv with
  | @scalar x =>
    cases hw with
    | scalar =>
      cases hok
      exact .scalar
    | array hcb => exact (Value.Numbers.array hcb).mapNumbers (f := f x) hok
  | array hca =>
    cases hw with
    | @scalar y => exact (Value.Numbers.array hca).mapNumbers (f := fun x => f x y) hok
    | array hcb =>
      obtain ⟨d, hcombined, rfl⟩ := map_eq_ok_iff.1 (mapError_eq_ok_iff.1 hok)
      obtain ⟨c, hone, hleft, hright, rfl⟩ := (Jagged.zip_eq_ok_iff hca hcb).1 hcombined
      have hconsistent : c.Consistent := by rcases hone with rfl | rfl <;> assumption
      exact .array ((Jagged.consistent_withLeaves
        (Jagged.length_zipWith_stretch hconsistent hleft hright)).2 hconsistent)

end ColumnFlow
