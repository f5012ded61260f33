import ColumnFlow.Proofs.Arrays.Taking
import ColumnFlow.Proofs.Builtins
import ColumnFlow.Proofs.Numbers.Nearest

/-!
# Slices of the nested list

A slice is stated over whole numbers of any size: the places from the first one on, a step apart,
that come before the last one in the direction of the step. `slice` gives the array of the entries
at these places, although it counts in 64-bit integers: a bound or a step beyond their range lies
beyond the entries, and what stands at the end of the range does so too.
-/

namespace ColumnFlow

/-! ## Whole numbers -/

/-- The exact value of a double. -/
def Binary64.signed (b : Binary64) : ℚ := if b.negative then -b.value else b.value

/-- The double is finite, and its exact value is a whole number. -/
def IsWhole (x : Float) (n : Int) : Prop := ∃ b, Binary64.ofFloat? x = some b ∧ b.signed = n

namespace Binary64

/-- The whole number without its sign that a double stands for, if there is one. -/
def whole? (b : Binary64) : Option Nat :=
  if 0 ≤ b.exponent then some (b.mantissa * Nat.pow 2 b.exponent.toNat)
  else if b.mantissa % Nat.pow 2 (-b.exponent).toNat = 0 then
    some (b.mantissa / Nat.pow 2 (-b.exponent).toNat)
  else none

/-- Shifting the mantissa gives the whole number exactly if the value is that number. -/
theorem whole?_eq_some_iff {b : Binary64} {m : Nat} : b.whole? = some m ↔ b.value = m := by
  unfold whole? value
  rcases lt_or_ge b.exponent 0 with hbelow | habove
  · obtain ⟨k, hpower⟩ : ∃ k : Nat, b.exponent = -(k : Int) := ⟨(-b.exponent).toNat, by omega⟩
    have hplaces : (-b.exponent).toNat = k := by omega
    have hscaled : (b.mantissa : ℚ) * 2 ^ b.exponent = m ↔ b.mantissa = m * 2 ^ k := by
      rw [hpower, zpow_neg, zpow_natCast, ← div_eq_mul_inv, div_eq_iff (by positivity)]
      norm_cast
    rw [if_neg (Int.not_le.2 hbelow), hplaces, hscaled]
    have hpositive : 0 < Nat.pow 2 k := Nat.two_pow_pos k
    constructor
    · intro hwhole
      split at hwhole
      · next hdivides =>
        cases hwhole
        exact (Nat.div_mul_cancel (Nat.dvd_of_mod_eq_zero hdivides)).symm
      · cases hwhole
    · intro hproduct
      have hdivides : b.mantissa % Nat.pow 2 k = 0 := hproduct ▸ Nat.mul_mod_left m _
      rw [if_pos hdivides, hproduct]
      exact congrArg some (Nat.mul_div_left m hpositive)
  · obtain ⟨k, hpower⟩ : ∃ k : Nat, b.exponent = k := ⟨b.exponent.toNat, by omega⟩
    rw [if_pos habove, hpower, Int.toNat_natCast, zpow_natCast, Option.some_inj]
    norm_cast

/-- The signed value is the whole number whose magnitude and sign it has. -/
theorem signed_eq_iff {b : Binary64} {n : Int} :
    b.signed = n ↔ ∃ m : Nat, b.value = m ∧ (if b.negative then -(m : Int) else m) = n := by
  have hnatural : 0 ≤ b.value := by
    unfold value
    positivity
  unfold signed
  constructor
  · intro hexact
    split at hexact
    · next hnegative =>
      have hsize : b.value = ((-n : Int) : ℚ) := by
        push_cast
        linarith
      have hsign : 0 ≤ -n := by exact_mod_cast hsize ▸ hnatural
      refine ⟨(-n).toNat, ?_, ?_⟩
      · rw [hsize]
        exact_mod_cast (Int.toNat_of_nonneg hsign).symm
      · rw [if_pos hnegative]
        omega
    · next hpositive =>
      have hsign : 0 ≤ n := by exact_mod_cast hexact ▸ hnatural
      refine ⟨n.toNat, ?_, ?_⟩
      · rw [hexact]
        exact_mod_cast (Int.toNat_of_nonneg hsign).symm
      · rw [if_neg hpositive]
        omega
  · rintro ⟨m, hsize, rfl⟩
    rw [hsize]
    split <;> push_cast <;> rfl

end Binary64

/-- The number is read off as a whole number without its sign, which is then given the sign. -/
theorem wholeNumber?_eq (x : Float) :
    wholeNumber? x = (Binary64.ofFloat? x).bind fun b =>
      b.whole?.map fun m : Nat => if b.negative then -(m : Int) else (m : Int) := by
  unfold wholeNumber?
  refine congrArg _ (funext fun b => ?_)
  change (b.whole?.bind fun m : Nat => some (m : Int)).map
    (fun m => if b.negative then -m else m) = _
  cases b.whole? <;> rfl

/-- A double is read as a whole number exactly if it is one. -/
theorem wholeNumber?_eq_some_iff {x : Float} {n : Int} :
    wholeNumber? x = some n ↔ IsWhole x n := by
  rw [wholeNumber?_eq, Option.bind_eq_some_iff]
  refine exists_congr fun b => and_congr_right fun _ => ?_
  rw [Binary64.signed_eq_iff, Option.map_eq_some_iff]
  exact exists_congr fun m => and_congr_left fun _ => Binary64.whole?_eq_some_iff

/-! ## Parts of a slice -/

open Int64Range

/-- What a value stands for as a part of a slice: nothing for a part that is left out, and a whole
number of any size for one that is given. -/
inductive Value.IsPart : Value → Option Int → Prop
  | omitted : IsPart .nothing none
  | given {x : Float} {n : Int} (whole : IsWhole x n) : IsPart (.scalar x) (some n)

section

variable {v w : Value} {part : Option Int}

/-- A number beyond the range is read as the end of the range. -/
theorem Value.IsPart.wholePart_eq (h : v.IsPart part) : v.wholePart = .ok (part.map saturate) := by
  cases h with
  | omitted => rfl
  | given hwhole =>
    unfold wholePart
    dsimp only
    rw [wholeNumber?_eq_some_iff.2 hwhole]
    rfl

/-- What is neither omitted nor a whole number is refused. -/
theorem Value.wholePart_eq_refuse (hfails : ∀ part, ¬ v.IsPart part) :
    v.wholePart = .refuse (.notWhole v) := by
  cases v with
  | nothing => exact absurd .omitted (hfails none)
  | scalar x =>
    unfold wholePart
    dsimp only
    cases hfound : wholeNumber? x with
    | none => rfl
    | some n => exact absurd (.given (wholeNumber?_eq_some_iff.1 hfound)) (hfails _)
  | _ => rfl

end

/-! ## Progressions -/

namespace Slice

section

variable {start stop step : Int} {n : Nat}

/-- How many of the numbers from `start` on, a step apart, come before `stop`. -/
def steps (start stop step : Int) : Nat :=
  if 0 < step then ((stop - start + step - 1) / step).toNat
  else ((start - stop - step - 1) / -step).toNat

/-- The numbers from `start` on, a step apart, that come before `stop`. -/
def progression (start stop step : Int) : List Int :=
  (List.range (steps start stop step)).map fun n : Nat => start + n * step

/-- A number comes before another one in the direction of the step. -/
def Before (step a b : Int) : Prop := if 0 < step then a < b else b < a

/-- A progression has as many places as there are steps before its end. -/
theorem lt_steps_iff (hnonzero : step ≠ 0) :
    n < steps start stop step ↔ Before step (start + n * step) stop := by
  unfold steps Before
  split
  · next hup =>
    rw [Int.lt_toNat, ← Int.add_one_le_iff, Int.le_ediv_iff_mul_le hup, Int.add_mul]
    omega
  · next hdown =>
    rw [Int.lt_toNat, ← Int.add_one_le_iff, Int.le_ediv_iff_mul_le (by omega), Int.add_mul,
      Int.mul_neg]
    omega

/-- A progression whose start is not before its end has no places. -/
theorem progression_eq_nil (hnonzero : step ≠ 0) (hended : ¬ Before step start stop) :
    progression start stop step = [] := by
  have hnone : steps start stop step = 0 := by
    refine Nat.eq_zero_of_not_pos fun hpositive => hended ?_
    have hfirst := (lt_steps_iff hnonzero).1 hpositive
    rwa [Int.natCast_zero, Int.zero_mul, Int.add_zero] at hfirst
  rw [progression, hnone]
  rfl

/-- A progression begins at its start and goes on from the next step. -/
theorem progression_eq_cons (hnonzero : step ≠ 0) (hfirst : Before step start stop) :
    progression start stop step = start :: progression (start + step) stop step := by
  have hmore : steps start stop step = steps (start + step) stop step + 1 := by
    refine eq_of_forall_lt_iff fun n => ?_
    cases n with
    | zero =>
      rw [lt_steps_iff hnonzero, Int.natCast_zero, Int.zero_mul, Int.add_zero]
      exact iff_of_true hfirst (Nat.succ_pos _)
    | succ n =>
      have hnext : start + (n + 1 : Nat) * step = start + step + n * step := by
        push_cast
        ring
      rw [Nat.succ_lt_succ_iff, lt_steps_iff hnonzero, lt_steps_iff hnonzero, hnext]
  rw [progression, hmore, List.range_succ_eq_map, List.map_cons, List.map_map, progression]
  refine congrArg₂ _ (by simp) (List.map_congr_left fun n _ => ?_)
  simp only [Function.comp_apply, Nat.succ_eq_add_one]
  push_cast
  ring

/-- When the second number is not before the end any more, there is at most the first. -/
theorem progression_eq_of_le {step' : Int} (hnonzero : step ≠ 0) (hnonzero' : step' ≠ 0)
    (hsame : 0 < step ↔ 0 < step') (hended : ¬ Before step (start + step) stop)
    (hended' : ¬ Before step' (start + step') stop) :
    progression start stop step = progression start stop step' := by
  have hboth : Before step start stop ↔ Before step' start stop := by
    unfold Before
    rw [if_congr hsame rfl rfl]
  by_cases first : Before step start stop
  · rw [progression_eq_cons hnonzero first, progression_eq_cons hnonzero' (hboth.1 first),
      progression_eq_nil hnonzero hended, progression_eq_nil hnonzero' hended']
  · rw [progression_eq_nil hnonzero first, progression_eq_nil hnonzero' (mt hboth.2 first)]

end

/-! ## Counting in 64-bit integers -/

section

variable {start stop step i low high length bound : Int}

/-- Counting upwards in 64-bit integers gives the places of the progression. -/
theorem ascending_eq (hpositive : 0 < step) (hnatural : 0 ≤ i) (hlast : stop ≤ greatest) :
    ascending stop step hpositive i = (progression i stop step).map Int.toNat := by
  have hbefore (a : Int) : Before step a stop ↔ a < stop := by
    rw [Before, if_pos hpositive]
  have hnonzero : step ≠ 0 := by omega
  fun_induction ascending stop step hpositive i with
  | case1 i hbelow next hfound ih =>
    simp only [add?] at hfound
    split at hfound
    · cases hfound
      rw [progression_eq_cons hnonzero ((hbefore i).2 hbelow), List.map_cons, ih (by omega)]
    · cases hfound
  | case2 i hbelow hbeyond =>
    -- The next number is beyond the range, and therefore beyond the hlast place.
    have hended : ¬ Before step (i + step) stop := by
      simp only [add?] at hbeyond
      split at hbeyond
      · cases hbeyond
      · rw [hbefore]
        unfold least at *
        omega
    rw [progression_eq_cons hnonzero ((hbefore i).2 hbelow), progression_eq_nil hnonzero hended]
    rfl
  | case3 i habove => rw [progression_eq_nil hnonzero (mt (hbefore i).1 habove), List.map_nil]

/-- Counting downwards in 64-bit integers gives the places of the progression. -/
theorem descending_eq (hnegative : step < 0) (hbounded : i ≤ greatest) (hlast : -1 ≤ stop) :
    descending stop step hnegative i = (progression i stop step).map Int.toNat := by
  have hbefore (a : Int) : Before step a stop ↔ stop < a := by
    rw [Before, if_neg (by omega)]
  have hnonzero : step ≠ 0 := by omega
  fun_induction descending stop step hnegative i with
  | case1 i habove next hfound ih =>
    simp only [add?] at hfound
    split at hfound
    · cases hfound
      rw [progression_eq_cons hnonzero ((hbefore i).2 habove), List.map_cons, ih (by omega)]
    · cases hfound
  | case2 i habove hbeyond =>
    have hended : ¬ Before step (i + step) stop := by
      simp only [add?] at hbeyond
      split at hbeyond
      · cases hbeyond
      · rw [hbefore]
        unfold least at *
        omega
    rw [progression_eq_cons hnonzero ((hbefore i).2 habove), progression_eq_nil hnonzero hended]
    rfl
  | case3 i hbelow => rw [progression_eq_nil hnonzero (mt (hbefore i).1 hbelow), List.map_nil]

/-- A bound of any size, counted from the end if it is negative, and moved into the range. -/
def placeOf (length low high bound : Int) : Int :=
  max low (min (if bound < 0 then bound + length else bound) high)

/-- A bound beyond the range of 64-bit integers is on the same side of every place as the end of
the range. -/
theorem resolve_saturate (hnatural : 0 ≤ length) (hcounted : length ≤ greatest)
    (hrange : low ≤ high) (hlowest : -1 ≤ low) (highest : high ≤ length) :
    resolve length low high (saturate bound) = .ok (placeOf length low high bound) := by
  unfold resolve
  by_cases hnegative : bound < 0
  · have hsign : saturate bound < 0 := by
      unfold saturate least greatest
      omega
    have hsum : add (saturate bound) length = .ok (saturate bound + length) := by
      unfold add add? saturate least
      rw [if_pos (by unfold greatest at *; omega)]
    rw [if_pos hsign, hsum, placeOf, if_pos hnegative]
    refine (if_pos hrange).trans (congrArg Except.ok ?_)
    unfold saturate least greatest at *
    omega
  · have hsign : ¬ saturate bound < 0 := by
      unfold saturate least greatest
      omega
    rw [if_neg hsign, placeOf, if_neg hnegative]
    refine (if_pos hrange).trans (congrArg Except.ok ?_)
    unfold saturate least greatest at *
    omega

end

/-! ## Places of a slice -/

section

variable {s : Slice} {length : Nat}

/-- The step, which is one unless it is given. -/
def stride (s : Slice) : Int := s.step.getD 1

/-- The least place a bound can stand at. Going down, a bound may stand in front of the first
entry. -/
def low (s : Slice) : Int := if 0 < s.stride then 0 else -1

/-- The greatest place a bound can stand at. Going up, a bound may stand behind the last entry. -/
def high (s : Slice) (length : Nat) : Int := if 0 < s.stride then length else length - 1

/-- The place of a bound, which is another one for a bound that is left out. -/
def boundAt (s : Slice) (length : Nat) (part : Option Int) (other : Int) : Int :=
  match part with
  | some bound => placeOf length s.low (s.high length) bound
  | none => other

/-- The place the slice starts at. -/
def first (s : Slice) (length : Nat) : Int :=
  s.boundAt length s.lower (if 0 < s.stride then s.low else s.high length)

/-- The place the slice ends in front of. -/
def last (s : Slice) (length : Nat) : Int :=
  s.boundAt length s.upper (if 0 < s.stride then s.high length else s.low)

/-- The places that a slice with parts of any size selects among `length` entries. -/
def places (s : Slice) (length : Nat) : List Nat :=
  (progression (s.first length) (s.last length) s.stride).map Int.toNat

/-- The slice with its parts moved into the range of 64-bit integers. -/
def saturated (s : Slice) : Slice :=
  ⟨s.lower.map saturate, s.upper.map saturate, s.step.map saturate⟩

theorem saturated_step_getD (s : Slice) : s.saturated.step.getD 1 = saturate s.stride := by
  unfold saturated stride
  cases s.step <;> rfl

theorem low_le_high (s : Slice) (length : Nat) : s.low ≤ s.high length := by
  unfold low high
  split <;> omega

/-- A bound lies where the direction of the step allows one. -/
theorem boundAt_bounds {part : Option Int} {other : Int}
    (hrange : s.low ≤ other ∧ other ≤ s.high length) :
    s.low ≤ s.boundAt length part other ∧ s.boundAt length part other ≤ s.high length := by
  cases part with
  | none => exact hrange
  | some bound =>
    have hordered := s.low_le_high length
    unfold boundAt placeOf
    dsimp only
    omega

theorem first_bounds (s : Slice) (length : Nat) :
    s.low ≤ s.first length ∧ s.first length ≤ s.high length := by
  have hordered := s.low_le_high length
  refine boundAt_bounds ?_
  split <;> omega

theorem last_bounds (s : Slice) (length : Nat) :
    s.low ≤ s.last length ∧ s.last length ≤ s.high length := by
  have hordered := s.low_le_high length
  refine boundAt_bounds ?_
  split <;> omega

/-- The places of a slice are there: its numbers start in the range of its bounds, go one way and
stop in front of its end. -/
theorem lt_of_mem_places (hnonzero : s.stride ≠ 0) : ∀ p ∈ s.places length, p < length := by
  intro p hmem
  obtain ⟨q, hinside, rfl⟩ := List.mem_map.1 hmem
  obtain ⟨n, hbelow, rfl⟩ := List.mem_map.1 hinside
  have hbefore := (lt_steps_iff hnonzero).1 (List.mem_range.1 hbelow)
  have hstart := s.first_bounds length
  have hstop := s.last_bounds length
  unfold low high at hstart hstop
  unfold Before at hbefore
  split at hbefore
  · next hup =>
    rw [if_pos hup, if_pos hup] at hstart hstop
    have hfar : 0 ≤ (n : Int) * s.stride := by positivity
    omega
  · next hdown =>
    rw [if_neg hdown, if_neg hdown] at hstart hstop
    have hfar : (n : Int) * s.stride ≤ 0 := by
      refine mul_nonpos_of_nonneg_of_nonpos ?_ ?_ <;> omega
    omega

/-- A bound that may be left out, in 64-bit integers. -/
theorem resolve_part (hcounted : (length : Int) ≤ greatest) (part : Option Int) (other : Int) :
    ((part.map saturate).map (resolve length s.low (s.high length))).getD (pure other) =
      .ok (s.boundAt length part other) := by
  cases part with
  | none => rfl
  | some bound =>
    refine resolve_saturate (by omega) hcounted (s.low_le_high length) ?_ ?_
    · unfold low
      split <;> omega
    · unfold high
      split <;> omega

/-- A step beyond the range of 64-bit integers leads past every place, and so does the end of the
range. -/
theorem progression_saturate (hnonzero : s.stride ≠ 0) (hcounted : (length : Int) ≤ greatest) :
    progression (s.first length) (s.last length) (saturate s.stride) =
      progression (s.first length) (s.last length) s.stride := by
  have hstart := s.first_bounds length
  have hstop := s.last_bounds length
  by_cases hinside : saturate s.stride = s.stride
  · rw [hinside]
  · have hsign : 0 < saturate s.stride ↔ 0 < s.stride := by
      unfold saturate least greatest
      omega
    have hnonzero' : saturate s.stride ≠ 0 := by
      unfold saturate least greatest
      omega
    refine progression_eq_of_le hnonzero' hnonzero hsign ?_ ?_
    all_goals
      unfold low high at hstart hstop
      unfold Before
      unfold saturate least greatest at *
      split at hstart <;> split <;> omega

/-- Counting in 64-bit integers finds the places of the slice. -/
theorem positions_saturated (hnonzero : s.stride ≠ 0) (hcounted : (length : Int) ≤ greatest) :
    s.saturated.positions length = .ok (s.places length) := by
  have hstart := s.first_bounds length
  have hstop := s.last_bounds length
  have hlower := resolve_part (s := s) hcounted s.lower
  have hupper := resolve_part (s := s) hcounted s.upper
  unfold positions
  dsimp only
  rw [saturated_step_getD, places, ← progression_saturate hnonzero hcounted]
  -- Saturating keeps the direction of the step, and with it which end each omitted bound stands
  -- for.
  rcases lt_or_gt_of_ne hnonzero with hdown | hup
  · have hdown' : saturate s.stride < 0 := by
      unfold saturate least greatest
      omega
    have hdownward : ¬ 0 < s.stride := by omega
    have hlow : s.low = -1 := if_neg hdownward
    have hhigh : s.high length = length - 1 := if_neg hdownward
    have hfirst : s.boundAt length s.lower (length - 1) = s.first length := by
      rw [Slice.first, if_neg hdownward, hhigh]
    have hlast : s.boundAt length s.upper (-1) = s.last length := by
      rw [Slice.last, if_neg hdownward, hlow]
    rw [hlow, hhigh] at hlower hupper hstart hstop
    rw [dif_neg (by omega), dif_pos hdown', saturated, hlower, hupper, hfirst, hlast, ok_bind,
      ok_bind, descending_eq hdown' (by omega) hstop.1]
    rfl
  · have hup' : 0 < saturate s.stride := by
      unfold saturate least greatest
      omega
    have hlow : s.low = 0 := if_pos hup
    have hhigh : s.high length = length := if_pos hup
    have hfirst : s.boundAt length s.lower 0 = s.first length := by
      rw [Slice.first, if_pos hup, hlow]
    have hlast : s.boundAt length s.upper length = s.last length := by
      rw [Slice.last, if_pos hup, hhigh]
    rw [hlow, hhigh] at hlower hupper hstart hstop
    rw [dif_pos hup', saturated, hlower, hupper, hfirst, hlast, ok_bind, ok_bind,
      ascending_eq hup' hstart.1 (by omega)]
    rfl

/-- A step of zero is refused. -/
theorem positions_eq_refuse (hzero : s.step = some 0) :
    s.saturated.positions length = .refuse .zeroStep := by
  have hstopped : s.saturated.step.getD 1 = 0 := by
    rw [saturated_step_getD, stride, hzero]
    rfl
  unfold positions
  dsimp only
  rw [hstopped]
  rfl

example : (⟨none, none, some (-2)⟩ : Slice).places 5 = [4, 2, 0] := by decide

example : (⟨some (-4), some 10, none⟩ : Slice).places 5 = [1, 2, 3, 4] := by decide

end

end Slice

/-! ## Subscripts -/

namespace Jagged

variable {a : Jagged} {s : Slice} {i : Int} {x : Float} {v w u : Value}

/-- A slice has the entries at its places. -/
theorem slice_selects (hconsistent : a.Consistent) (hcounted : (a.length : Int) ≤ greatest)
    (hnonzero : s.stride ≠ 0) :
    ∃ b, a.slice s.saturated = .ok (.array b) ∧ b.Consistent ∧ b.depth = a.depth ∧
      Selects a.entries (s.places a.length) b.entries := by
  have hinside : ∀ p ∈ s.places a.length, p < a.entries.length := by
    rw [length_entries]
    exact Slice.lt_of_mem_places hnonzero
  obtain ⟨entries, hselected⟩ := exists_selects hinside
  obtain ⟨b, htaken, hconsistent', hdepth, hsame⟩ := exists_take_of_selects hconsistent hselected
  refine ⟨b, ?_, hconsistent', hdepth, hsame ▸ hselected⟩
  rw [slice, Slice.positions_saturated hnonzero hcounted, ok_bind, htaken]
  rfl

/-- The place of a position, counted from the end if it is negative. -/
def outerPlace (a : Jagged) (i : Int) : Int := if i < 0 then i + a.length else i

/-- A position beyond the range of 64-bit integers is looked up at the end of the range. -/
theorem at_saturate (hcounted : (a.length : Int) ≤ greatest) (i : Int) :
    a.at (saturate i) =
      if a.outerPlace (saturate i) < 0 ∨ a.length ≤ a.outerPlace (saturate i) then
        .refuse (.indexOutOfRange (saturate i) a.length)
      else
        Answer.ofFaulty (a.entry? (a.outerPlace (saturate i)).toNat) >>= fun found =>
          match found with
          | some v => .ok v
          | none => .refuse (.indexOutOfRange (saturate i) a.length) := by
  unfold Jagged.at outerPlace
  dsimp only
  split
  · next hnegative =>
    have hfits : least ≤ saturate i + a.length ∧ saturate i + a.length ≤ greatest := by
      unfold saturate least greatest at *
      omega
    rw [add, add?, if_pos hfits]
    rfl
  · rfl

/-- An index outside of the array is refused, with the number at which counting stops. -/
theorem at_eq_refuse (hcounted : (a.length : Int) ≤ greatest)
    (houtside : ¬ (-(a.length : Int) ≤ i ∧ i < a.length)) :
    a.at (saturate i) = .refuse (.indexOutOfRange (saturate i) a.length) := by
  have hfar : a.outerPlace (saturate i) < 0 ∨ (a.length : Int) ≤ a.outerPlace (saturate i) := by
    unfold outerPlace saturate least greatest at *
    omega
  rw [at_saturate hcounted, if_pos hfar]

/-- An index within the array gives the entry at its place. -/
theorem exists_at (hconsistent : a.Consistent) (hcounted : (a.length : Int) ≤ greatest)
    (hinside : -(a.length : Int) ≤ i ∧ i < a.length) :
    ∃ v e, a.at (saturate i) = .ok v ∧ a.entries[(a.outerPlace i).toNat]? = some e ∧
      v.Denotes e ∧ a.Inside v := by
  have hsame : saturate i = i := by
    unfold saturate least greatest at *
    omega
  have hplace : 0 ≤ a.outerPlace i ∧ a.outerPlace i < a.length := by
    unfold outerPlace
    omega
  have hbelow : (a.outerPlace i).toNat < a.length := by omega
  obtain ⟨v, e, hfound, hentry, hdenotes, hdepth⟩ := exists_denotes hconsistent hbelow
  refine ⟨v, e, ?_, hentry, hdenotes, hdepth⟩
  rw [at_saturate hcounted, hsame, if_neg (by omega), hfound]
  rfl

theorem select_tuple {s : Slice} (hlower : v.IsPart s.lower) (hupper : w.IsPart s.upper)
    (hstep : u.IsPart s.step) : a.select (.tuple [v, w, u]) = a.slice s.saturated := by
  unfold select
  dsimp only
  rw [hlower.wholePart_eq, hupper.wholePart_eq, hstep.wholePart_eq]
  rfl

/-- The first part that is no whole number is the one that is refused. -/
theorem select_tuple_eq_refuse (hfails : ∃ x ∈ [v, w, u], ∀ part, ¬ x.IsPart part) :
    ∃ x ∈ [v, w, u], (∀ part, ¬ x.IsPart part) ∧
      a.select (.tuple [v, w, u]) = .refuse (.notWhole x) := by
  have hcases (x : Value) : (∃ part, x.IsPart part) ∨ ∀ part, ¬ x.IsPart part := by
    rw [← not_exists]
    exact Classical.em _
  unfold select
  dsimp only
  rcases hcases v with ⟨lower, first⟩ | first
  · rcases hcases w with ⟨upper, hsecond⟩ | hsecond
    · have hthird : ∀ part, ¬ u.IsPart part := by
        obtain ⟨x, hmem, hother⟩ := hfails
        simp only [List.mem_cons, List.not_mem_nil, or_false] at hmem
        rcases hmem with rfl | rfl | rfl
        · exact absurd first (hother _)
        · exact absurd hsecond (hother _)
        · exact hother
      refine ⟨u, by simp, hthird, ?_⟩
      rw [first.wholePart_eq, hsecond.wholePart_eq, Value.wholePart_eq_refuse hthird]
      rfl
    · refine ⟨w, by simp, hsecond, ?_⟩
      rw [first.wholePart_eq, Value.wholePart_eq_refuse hsecond]
      rfl
  · refine ⟨v, by simp, first, ?_⟩
    rw [Value.wholePart_eq_refuse first]
    rfl

theorem select_scalar (hwhole : IsWhole x i) : a.select (.scalar x) = a.at (saturate i) := by
  unfold select
  dsimp only
  rw [(Value.IsPart.given hwhole).wholePart_eq]
  rfl

/-- A subscript that is no whole number is refused. -/
theorem select_scalar_eq_refuse (hfails : ∀ i, ¬ IsWhole x i) :
    a.select (.scalar x) = .refuse (.notWhole (.scalar x)) := by
  have hother : ∀ part, ¬ (Value.scalar x).IsPart part := by
    intro part h
    cases h with
    | given hwhole => exact hfails _ hwhole
  unfold select
  dsimp only
  rw [Value.wholePart_eq_refuse hother]
  rfl

theorem slice_eq_select (a : Jagged) (subscript : Value) :
    Builtin.slice [.array a, subscript] = a.select subscript := rfl

/-- Slices and positions of any size on the outer axis of an array that is held in memory. A triple
of whole numbers gives the array, of the same depth, of the entries at the places of the slice, and
an error if the step is zero. A whole number gives the entry at its place, counted from the end if
it is negative, and an error if there is none. Any other part is an error. -/
theorem slice_of_nested_list (a : Jagged) (hconsistent : a.Consistent)
    (hcounted : (a.length : Int) ≤ greatest) :
    (∀ (s : Slice) (v w u : Value), v.IsPart s.lower → w.IsPart s.upper → u.IsPart s.step →
      (s.step ≠ some 0 → ∃ b, Builtin.slice [.array a, .tuple [v, w, u]] = .ok (.array b) ∧
        b.Consistent ∧ b.depth = a.depth ∧ Selects a.entries (s.places a.length) b.entries) ∧
      (s.step = some 0 → Builtin.slice [.array a, .tuple [v, w, u]] = .refuse .zeroStep)) ∧
    (∀ v w u : Value, (∃ x ∈ [v, w, u], ∀ part, ¬ x.IsPart part) →
      ∃ x ∈ [v, w, u], (∀ part, ¬ x.IsPart part) ∧
        Builtin.slice [.array a, .tuple [v, w, u]] = .refuse (.notWhole x)) ∧
    (∀ (x : Float) (i : Int), IsWhole x i →
      (-(a.length : Int) ≤ i ∧ i < a.length → ∃ v e, Builtin.slice [.array a, .scalar x] = .ok v ∧
        a.entries[(a.outerPlace i).toNat]? = some e ∧ v.Denotes e ∧ a.Inside v) ∧
      (¬ (-(a.length : Int) ≤ i ∧ i < a.length) → Builtin.slice [.array a, .scalar x] =
        .refuse (.indexOutOfRange (saturate i) a.length))) ∧
    ∀ x : Float, (∀ i, ¬ IsWhole x i) →
      Builtin.slice [.array a, .scalar x] = .refuse (.notWhole (.scalar x)) := by
  simp only [slice_eq_select]
  refine ⟨fun s v w u hlower hupper hstep => ⟨fun hnonzero => ?_, fun hzero => ?_⟩,
    fun v w u => select_tuple_eq_refuse, fun x i hwhole => ⟨fun hinside => ?_, fun houtside => ?_⟩,
    fun x => select_scalar_eq_refuse⟩
  · have hstride : s.stride ≠ 0 := by
      unfold Slice.stride
      cases hgiven : s.step with
      | none => exact Int.one_ne_zero
      | some n => exact fun heq => hnonzero (hgiven.trans (congrArg some heq))
    rw [select_tuple hlower hupper hstep]
    exact slice_selects hconsistent hcounted hstride
  · rw [select_tuple hlower hupper hstep, slice, Slice.positions_eq_refuse hzero]
    rfl
  · rw [select_scalar hwhole]
    exact exists_at hconsistent hcounted hinside
  · rw [select_scalar hwhole]
    exact at_eq_refuse hcounted houtside

/-- Backwards from the last entry, and a step of `2^63` from the second one, which is empty. -/
theorem slice_of_nested_list_backwards :
    let x := Float.ofBits 0x3FF0000000000000
    let back := Float.ofBits 0xC000000000000000
    let far := Float.ofBits 0x43E0000000000000
    let a : Jagged := .nested [2, 0, 1] (.flat [x, x, -x])
    a.Consistent ∧ (a.length : Int) ≤ greatest ∧
      IsWhole (-x) (-1) ∧ IsWhole back (-2) ∧ IsWhole x 1 ∧ IsWhole far (greatest + 1) ∧
      Builtin.slice [.array a, .tuple [.scalar (-x), .nothing, .scalar back]] =
        .ok (.array (.nested [1, 2] (.flat [-x, x, x]))) ∧
      Builtin.slice [.array a, .tuple [.scalar x, .nothing, .scalar far]] =
        .ok (.array (.nested [0] (.flat []))) ∧
      Builtin.slice [.array a, .scalar far] = .refuse (.indexOutOfRange greatest 3) := by
  intro x back far a
  have hconsistent : a.Consistent := ⟨rfl, trivial⟩
  have hcounted : (a.length : Int) ≤ greatest := by decide
  have hlast : IsWhole (-x) (-1) := wholeNumber?_eq_some_iff.1 (by decide)
  have htwo : IsWhole back (-2) := wholeNumber?_eq_some_iff.1 (by decide)
  have hone : IsWhole x 1 := wholeNumber?_eq_some_iff.1 (by decide)
  have hbeyond : IsWhole far (greatest + 1) := wholeNumber?_eq_some_iff.1 (by decide)
  obtain ⟨hslices, -, hpositions, -⟩ := slice_of_nested_list a hconsistent hcounted
  refine ⟨hconsistent, hcounted, hlast, htwo, hone, hbeyond, ?_, ?_, ?_⟩
  · obtain ⟨b, hok, hconsistent', hdepth, hselected⟩ :=
      (hslices ⟨some (-1), none, some (-2)⟩ _ _ _ (.given hlast) .omitted (.given htwo)).1
      (by decide)
    have hplaces : Slice.places ⟨some (-1), none, some (-2)⟩ a.length = [2, 0] := by decide
    have hsame : b = .nested [1, 2] (.flat [-x, x, x]) :=
      eq_of_entries hconsistent' ⟨rfl, trivial⟩ hdepth ((hplaces ▸ hselected).unique rfl)
    rw [hok, hsame]
  · obtain ⟨b, hok, hconsistent', hdepth, hselected⟩ :=
      (hslices ⟨some 1, none, some (greatest + 1)⟩ _ _ _ (.given hone) .omitted (.given hbeyond)).1
        (by decide)
    have hplaces : Slice.places ⟨some 1, none, some (greatest + 1)⟩ a.length = [1] := by decide
    have hsame : b = .nested [0] (.flat []) :=
      eq_of_entries hconsistent' ⟨rfl, trivial⟩ hdepth ((hplaces ▸ hselected).unique rfl)
    rw [hok, hsame]
  · exact (hpositions far _ hbeyond).2 (by decide)

end Jagged

end ColumnFlow
