import ColumnFlow.Proofs.Arrays.Entries
import ColumnFlow.Proofs.Arrays.Selecting

/-!
# Taking entries

A consistent array is determined by its depth and the nested list that it denotes. Taking outer
entries gives the array of those entries, in the order and as often as they are asked for; taking
from what was taken, taking everything and applying a function to the numbers are then read off
the lists. A single entry is the number or the list at its place.
-/

namespace ColumnFlow

/-! ## Elements at places -/

section

variable {α β : Type} {xs ys zs : List α} {places is js ks : List Nat}

/-- The second list holds the elements of the first one at the places, in the order of the
places. -/
def Selects (xs : List α) (places : List Nat) (ys : List α) : Prop :=
  places.map (xs[·]?) = ys.map some

/-- Places within a list have elements. -/
theorem exists_selects (hinside : ∀ i ∈ places, i < xs.length) : ∃ ys, Selects xs places ys := by
  induction places with
  | nil => exact ⟨[], rfl⟩
  | cons i is ih =>
    obtain ⟨hfirst, hrest⟩ := List.forall_mem_cons.1 hinside
    obtain ⟨ys, hselected⟩ := ih hrest
    refine ⟨xs[i] :: ys, ?_⟩
    rw [Selects, List.map_cons, List.map_cons, hselected, List.getElem?_eq_getElem hfirst]

theorem Selects.lt_of_mem (h : Selects xs places ys) : ∀ i ∈ places, i < xs.length := by
  intro i hmem
  have himage : xs[i]? ∈ ys.map some := by
    rw [← h]
    exact List.mem_map_of_mem hmem
  obtain ⟨y, -, hfound⟩ := List.mem_map.1 himage
  exact (List.getElem?_eq_some_iff.1 hfound.symm).1

theorem Selects.mem {y : α} (h : Selects xs places ys) (hmem : y ∈ ys) : y ∈ xs := by
  have himage : some y ∈ places.map (xs[·]?) := by
    rw [h]
    exact List.mem_map_of_mem hmem
  obtain ⟨i, -, hfound⟩ := List.mem_map.1 himage
  exact List.mem_of_getElem? hfound

theorem Selects.unique (h : Selects xs places ys) (h' : Selects xs places zs) : ys = zs :=
  List.map_injective_iff.2 (fun _ _ => Option.some.inj) (h.symm.trans h')

/-- The elements are those at the places, in the order of the places. -/
theorem Selects.getElem? (h : Selects xs places ys) (j : Nat) :
    ys[j]? = places[j]?.bind (xs[·]?) := by
  have hplace : places[j]?.map (xs[·]?) = ys[j]?.map some := by
    rw [← List.getElem?_map, h, List.getElem?_map]
  cases hfound : places[j]? with
  | none =>
    rw [hfound] at hplace
    exact Option.map_eq_none_iff.1 hplace.symm
  | some i =>
    rw [hfound] at hplace
    obtain ⟨y, hother, hsame⟩ := Option.map_eq_some_iff.1 hplace.symm
    exact hother.trans hsame

/-- Elements at places among the elements at places. -/
theorem Selects.trans (houter : Selects xs is ys) (hinner : Selects is js ks)
    (hwhole : Selects xs ks zs) : Selects ys js zs := by
  calc
    js.map (ys[·]?) = (js.map (is[·]?)).map (·.bind (xs[·]?)) := by
      rw [List.map_map]
      exact List.map_congr_left fun j _ => houter.getElem? j
    _ = (ks.map some).map (·.bind (xs[·]?)) := by rw [hinner]
    _ = ks.map (xs[·]?) := by
      rw [List.map_map]
      rfl
    _ = zs.map some := hwhole

theorem selects_range (xs : List α) : Selects xs (List.range xs.length) xs := by
  refine List.ext_getElem (by simp) fun i _ _ => ?_
  simp

theorem Selects.map (f : α → β) (h : Selects xs places ys) :
    Selects (xs.map f) places (ys.map f) := by
  calc
    places.map ((xs.map f)[·]?) = (places.map (xs[·]?)).map (Option.map f) := by simp
    _ = (ys.map some).map (Option.map f) := by rw [h]
    _ = (ys.map f).map some := by simp

/-- Consecutive places. -/
theorem selects_range' {start count : Nat} (hinside : start + count ≤ xs.length) :
    Selects xs (List.range' start count) ((xs.drop start).take count) := by
  refine List.ext_getElem ?_ fun i hbelow _ => ?_
  · rw [List.length_map, List.length_range', List.length_map, List.length_take, List.length_drop]
    omega
  · rw [List.length_map, List.length_range'] at hbelow
    simp only [List.getElem_map, List.getElem_range', List.getElem_take, List.getElem_drop,
      Nat.one_mul]
    exact List.getElem?_eq_getElem _

theorem Selects.append {further : List Nat} (h : Selects xs places ys)
    (h' : Selects xs further zs) : Selects xs (places ++ further) (ys ++ zs) := by
  rw [Selects, List.map_append, List.map_append, h, h']

/-- Selections one after the other are one selection. -/
theorem selects_flatten {f : Nat → List Nat} {g : Nat → List α}
    (heach : ∀ i ∈ is, Selects xs (f i) (g i)) :
    Selects xs (is.map f).flatten (is.map g).flatten := by
  induction is with
  | nil => rfl
  | cons i is ih =>
    obtain ⟨hfirst, hrest⟩ := List.forall_mem_cons.1 heach
    exact hfirst.append (ih hrest)

/-- Looking up elements one by one selects them. -/
theorem selects_of_mapM (hok : places.mapM (elementAt xs) = .ok ys) : Selects xs places ys := by
  induction places generalizing ys with
  | nil =>
    cases hok
    rfl
  | cons i is ih =>
    rw [List.mapM_cons] at hok
    obtain ⟨y, hfirst, hok⟩ := bind_eq_ok_iff.1 hok
    obtain ⟨rest, hothers, hok⟩ := bind_eq_ok_iff.1 hok
    cases hok
    have hfound : xs[i]? = some y := by
      unfold elementAt at hfirst
      split at hfirst
      · next hfound =>
        cases hfirst
        exact hfound
      · cases hfirst
    rw [Selects, List.map_cons, List.map_cons, hfound, ih hothers]

end

/-! ## Cutting -/

section

variable {α : Type} {counts : List Nat} {xs : List α}

@[simp] theorem length_cut (counts : List Nat) (xs : List α) :
    (cut counts xs).length = counts.length := by
  induction counts generalizing xs with
  | nil => rfl
  | cons count counts ih => simp [cut, ih]

/-- Pieces that are put together are cut apart again. -/
theorem cut_flatten (pieces : List (List α)) :
    cut (pieces.map List.length) pieces.flatten = pieces := by
  induction pieces with
  | nil => rfl
  | cons piece pieces ih => simp [cut, ih]

/-- Cutting a list and joining the pieces gives the list. -/
theorem flatten_cut (hsum : Jagged.total counts = xs.length) : (cut counts xs).flatten = xs := by
  induction counts generalizing xs with
  | nil => exact (List.eq_nil_of_length_eq_zero hsum.symm).symm
  | cons count counts ih =>
    rw [Jagged.total_cons] at hsum
    rw [cut, List.flatten_cons, ih (by rw [List.length_drop]; omega), List.take_append_drop]

/-- The pieces are as long as they were asked to be. -/
theorem lengths_cut (hsum : Jagged.total counts = xs.length) :
    (cut counts xs).map List.length = counts := by
  induction counts generalizing xs with
  | nil => rfl
  | cons count counts ih =>
    rw [Jagged.total_cons] at hsum
    rw [cut, List.map_cons, ih (by rw [List.length_drop]; omega), List.length_take_of_le (by omega)]

end

namespace Jagged

variable {a b : Jagged} {counts indices js chosen : List Nat} {i : Nat}

/-! ## The denoted list -/

/-- The nested list has as many entries as the array. -/
@[simp] theorem length_entries (a : Jagged) : a.entries.length = a.length := by
  cases a <;> simp [entries, length]

/-- Of one depth there is only one consistent array that denotes a list. -/
theorem eq_of_entries (hca : a.Consistent) (hcb : b.Consistent) (hdepth : a.depth = b.depth)
    (hsame : a.entries = b.entries) : a = b := by
  induction a generalizing b with
  | flat xs =>
    cases b with
    | flat ys =>
      have hnumbers : xs = ys :=
        List.map_injective_iff.2 (fun x y heq => Entry.number.inj heq) hsame
      rw [hnumbers]
    | nested counts content => cases hdepth
  | nested counts content ih =>
    cases b with
    | flat ys => cases hdepth
    | nested counts' content' =>
      have hsum : total counts = content.entries.length := hca.1.trans (length_entries _).symm
      have hsum' : total counts' = content'.entries.length := hcb.1.trans (length_entries _).symm
      have hpieces : cut counts content.entries = cut counts' content'.entries :=
        List.map_injective_iff.2 (fun x y heq => Entry.list.inj heq) hsame
      have hinner : content = content' := by
        refine ih hca.2 hcb.2 (Nat.succ.inj hdepth) ?_
        rw [← flatten_cut hsum, hpieces, flatten_cut hsum']
      rw [← lengths_cut hsum, hpieces, lengths_cut hsum', hinner]

/-! ## Taking -/

/-- What an outer entry holds: the entries of the content behind those of the entries before it. -/
def held (counts : List Nat) (content : Jagged) (i : Nat) : List Entry :=
  (content.entries.drop (total (counts.take i))).take (counts.getD i 0)

/-- What an entry holds is what the content has at the places of the entry. -/
theorem selects_held (hsum : total counts = a.length) (hinside : i < counts.length) :
    Selects a.entries (placesOf counts i) (held counts a i) := by
  refine selects_range' ?_
  rw [length_entries, ← hsum]
  exact total_take_add_le hinside

theorem length_held (hsum : total counts = a.length) (hinside : i < counts.length) :
    (held counts a i).length = counts.getD i 0 := by
  have hbelow := total_take_add_le hinside
  rw [held, List.length_take, List.length_drop, length_entries, ← hsum]
  omega

/-- An entry of a nested array is the list of what it holds. -/
theorem getElem?_entries_nested (hinside : i < counts.length) :
    (nested counts a).entries[i]? = some (.list (held counts a i)) := by
  rw [entries, List.getElem?_map, getElem?_cut, getElem?_getD hinside]
  rfl

/-- What was taken has the depth of the array and denotes the entries asked for. -/
theorem selects_of_take (hconsistent : a.Consistent) (htaken : a.take indices = .ok b) :
    b.depth = a.depth ∧ Selects a.entries indices b.entries := by
  -- On the levels: below the outermost one, the places are those that the taken entries hold.
  induction a generalizing indices b with
  | flat xs =>
    obtain ⟨ys, hselected, hok⟩ := bind_eq_ok_iff.1 htaken
    cases hok
    exact ⟨rfl, (selects_of_mapM hselected).map Entry.number⟩
  | nested counts content ih =>
    obtain ⟨kept, hselected, hrest⟩ := bind_eq_ok_iff.1 htaken
    obtain ⟨places, hlocated, hrest⟩ := bind_eq_ok_iff.1 hrest
    obtain ⟨inner, htaken', hok⟩ := bind_eq_ok_iff.1 hrest
    cases hok
    have hlengths : Selects counts indices kept := selects_of_mapM hselected
    have hinside := hlengths.lt_of_mem
    have hlocated' : indices.mapM (entryPlaces counts) = .ok (indices.map (placesOf counts)) :=
      mapM_eq_ok_map fun i hmem => entryPlaces_eq (hinside i hmem)
    cases hlocated.symm.trans hlocated'
    obtain ⟨hdepth, hentries⟩ := ih hconsistent.2 htaken'
    -- The content that was taken is what the entries hold, one after the other.
    have hwhole : inner.entries = (indices.map (held counts content)).flatten :=
      hentries.unique (selects_flatten fun i hmem => selects_held hconsistent.1 (hinside i hmem))
    have hcounted : kept = (indices.map (held counts content)).map List.length := by
      refine hlengths.unique ?_
      rw [Selects, List.map_map, List.map_map]
      refine List.map_congr_left fun i hmem => ?_
      rw [getElem?_getD (hinside i hmem), ← length_held hconsistent.1 (hinside i hmem)]
      rfl
    refine ⟨congrArg Nat.succ hdepth, ?_⟩
    rw [Jagged.entries.eq_def (nested kept inner)]
    dsimp only
    rw [hwhole, hcounted, cut_flatten, Selects, List.map_map, List.map_map]
    exact List.map_congr_left fun i hmem => getElem?_entries_nested (hinside i hmem)

/-- Entries that are there can be taken. -/
theorem exists_take_of_selects {entries : List Entry} (hconsistent : a.Consistent)
    (hselected : Selects a.entries indices entries) :
    ∃ b, a.take indices = .ok b ∧ b.Consistent ∧ b.depth = a.depth ∧ b.entries = entries := by
  have hinside := hselected.lt_of_mem
  rw [length_entries] at hinside
  obtain ⟨b, htaken, hconsistent', -⟩ := exists_take hconsistent hinside
  obtain ⟨hdepth, hselected'⟩ := selects_of_take hconsistent htaken
  exact ⟨b, htaken, hconsistent', hdepth, hselected'.unique hselected⟩

/-- An array that denotes the entries asked for is what is taken. -/
theorem take_eq_ok (hconsistent : a.Consistent) (hconsistent' : b.Consistent)
    (hdepth : b.depth = a.depth) (hselected : Selects a.entries indices b.entries) :
    a.take indices = .ok b := by
  obtain ⟨c, htaken, hconsistent'', hdepth', hsame⟩ := exists_take_of_selects hconsistent hselected
  rw [htaken, eq_of_entries hconsistent'' hconsistent' (hdepth'.trans hdepth.symm) hsame]

/-- Every entry in turn is the whole array. -/
theorem take_range (hconsistent : a.Consistent) : a.take (List.range a.length) = .ok a := by
  have hwhole := selects_range a.entries
  rw [length_entries] at hwhole
  exact take_eq_ok hconsistent hconsistent rfl hwhole

/-- Taking from what was taken is taking once, at the places among the places. -/
theorem take_take (hconsistent : a.Consistent) (htaken : a.take indices = .ok b)
    (hplaces : Selects indices js chosen) : b.take js = a.take chosen := by
  obtain ⟨hdepth, houter⟩ := selects_of_take hconsistent htaken
  have hinside := houter.lt_of_mem
  obtain ⟨c, htaken', hconsistent', -⟩ := exists_take hconsistent (length_entries a ▸ hinside)
  cases htaken.symm.trans htaken'
  have hbelow : ∀ i ∈ chosen, i < a.entries.length := by
    intro i hmem
    exact hinside i (hplaces.mem hmem)
  obtain ⟨es, hwhole⟩ := exists_selects hbelow
  obtain ⟨d, htaken'', hconsistent'', hdepth', hsame⟩ := exists_take_of_selects hconsistent hwhole
  rw [htaken'']
  refine take_eq_ok hconsistent' hconsistent'' (hdepth'.trans hdepth.symm) ?_
  exact houter.trans hplaces (hsame ▸ hwhole)

theorem mapM_elementAt_map (f : Float → Float) (xs : List Float) (indices : List Nat) :
    indices.mapM (elementAt (xs.map f)) = (indices.mapM (elementAt xs)).map (List.map f) := by
  have hone (i : Nat) : elementAt (xs.map f) i = (elementAt xs i).map f := by
    unfold elementAt
    rw [List.getElem?_map, List.length_map]
    cases xs[i]? <;> rfl
  induction indices with
  | nil => rfl
  | cons i is ih =>
    rw [List.mapM_cons, List.mapM_cons, hone, ih]
    cases elementAt xs i with
    | error e => rfl
    | ok x => cases is.mapM (elementAt xs) <;> rfl

/-- Taking entries and applying a function to the numbers can be exchanged. -/
theorem take_map (f : Float → Float) (a : Jagged) (indices : List Nat) :
    (a.map f).take indices = (a.take indices).map (Jagged.map f) := by
  induction a generalizing indices with
  | flat xs =>
    rw [map, take, take, mapM_elementAt_map]
    cases indices.mapM (elementAt xs) <;> rfl
  | nested counts content ih =>
    rw [map, take, take]
    cases indices.mapM (elementAt counts) with
    | error e => rfl
    | ok kept =>
      cases indices.mapM (entryPlaces counts) with
      | error e => rfl
      | ok places =>
        rw [ok_bind, ok_bind, ok_bind, ok_bind, ih]
        cases content.take places.flatten <;> rfl

end Jagged

/-! ## Single entries -/

/-- The value is the entry: the number, or a consistent array that denotes the list. -/
def Value.Denotes : Value → Entry → Prop
  | .scalar x, .number y => x = y
  | .array a, .list entries => a.Consistent ∧ a.entries = entries
  | _, _ => False

namespace Jagged

variable {a b : Jagged} {i : Nat}

/-- The entry of a nested array is one level less deep. -/
def Inside (a : Jagged) : Value → Prop
  | .array b => b.depth + 1 = a.depth
  | _ => True

/-- An index within a consistent array has an entry, which the value found there denotes. -/
theorem exists_denotes (hconsistent : a.Consistent) (hinside : i < a.length) :
    ∃ v e, a.entry? i = .ok (some v) ∧ a.entries[i]? = some e ∧ v.Denotes e ∧ a.Inside v := by
  unfold entry?
  rw [if_pos hinside]
  cases a with
  | flat xs =>
    have hfound : xs[i]? = some xs[i] := List.getElem?_eq_getElem hinside
    refine ⟨.scalar xs[i], .number xs[i], ?_, ?_, rfl, trivial⟩
    · dsimp only
      rw [elementAt_eq hfound]
      rfl
    · rw [entries, List.getElem?_map, hfound]
      rfl
  | nested counts content =>
    obtain ⟨b, htaken, hconsistent', hdepth, hsame⟩ :=
      exists_take_of_selects hconsistent.2 (selects_held hconsistent.1 hinside)
    refine ⟨.array b, _, ?_, getElem?_entries_nested hinside, ⟨hconsistent', hsame⟩, ?_⟩
    · dsimp only
      rw [entryPlaces_eq hinside, ok_bind, htaken]
      rfl
    · exact congrArg Nat.succ hdepth

/-- There is no entry at an index exactly if it lies behind the last one. -/
theorem entry?_eq_none_iff (hconsistent : a.Consistent) : a.entry? i = .ok none ↔ a.length ≤ i := by
  rcases Nat.lt_or_ge i a.length with hinside | houtside
  · obtain ⟨v, e, hfound, -⟩ := exists_denotes hconsistent hinside
    rw [hfound]
    exact iff_of_false (nofun) (Nat.not_le.2 hinside)
  · unfold entry?
    rw [if_neg (Nat.not_lt.2 houtside)]
    exact iff_of_true rfl houtside

/-- Taking outer entries of a consistent array and looking one up act on the list that it denotes.
What is taken is the consistent array, of the same depth, of the entries asked for. Taking from it
again is taking at the places among the places; taking every entry in turn gives the array back;
and a function may be applied to the numbers before or after. A look-up finds the entry at its
place, and nothing behind the last one. -/
theorem take_selects_entries (a : Jagged) (hconsistent : a.Consistent) :
    (∀ indices, (∀ i ∈ indices, i < a.length) → ∃ b, a.take indices = .ok b ∧
      b.Consistent ∧ b.depth = a.depth ∧ Selects a.entries indices b.entries ∧
      (∀ js, (∀ j ∈ js, j < indices.length) → ∃ chosen c, Selects indices js chosen ∧
        b.take js = .ok c ∧ a.take chosen = .ok c) ∧
      ∀ f, (a.map f).take indices = .ok (b.map f)) ∧
    a.take (List.range a.length) = .ok a ∧
    ∀ i, (a.entry? i = .ok none ↔ a.length ≤ i) ∧
      (i < a.length → ∃ v e, a.entry? i = .ok (some v) ∧ a.entries[i]? = some e ∧
        v.Denotes e ∧ a.Inside v) := by
  refine ⟨fun indices hinside => ?_, take_range hconsistent, fun i => ?_⟩
  · obtain ⟨b, htaken, hconsistent', hlength⟩ := exists_take hconsistent hinside
    obtain ⟨hdepth, hselected⟩ := selects_of_take hconsistent htaken
    refine ⟨b, htaken, hconsistent', hdepth, hselected, fun js hbelow => ?_, fun f => ?_⟩
    · obtain ⟨chosen, hplaces⟩ := exists_selects hbelow
      obtain ⟨c, htaken', -⟩ := exists_take hconsistent' (hlength ▸ hbelow)
      exact ⟨chosen, c, hplaces, htaken', (take_take hconsistent htaken hplaces).symm.trans htaken'⟩
    · rw [take_map, htaken]
      rfl
  · exact ⟨entry?_eq_none_iff hconsistent, exists_denotes hconsistent⟩

/-- Entries without content, one entry asked for twice, and the order turned round. -/
theorem take_selects_entries_repeated :
    let x := Float.ofBits 0x3FF0000000000000
    let a : Jagged := .nested [0, 2, 1] (.nested [1, 0, 2] (.flat [x, x, -x]))
    let b : Jagged := .nested [1, 0, 1] (.nested [2, 2] (.flat [x, -x, x, -x]))
    a.Consistent ∧ a.take [2, 0, 2] = .ok b ∧ Selects a.entries [2, 0, 2] b.entries ∧
      (∃ chosen c, Selects [2, 0, 2] [1, 2] chosen ∧
        b.take [1, 2] = .ok c ∧ a.take chosen = .ok c) ∧
      a.entry? 3 = .ok none := by
  intro x a b
  have hconsistent : a.Consistent := ⟨rfl, rfl, trivial⟩
  obtain ⟨htaking, -, hentry⟩ := take_selects_entries a hconsistent
  obtain ⟨c, htaken, -, -, hselected, hagain, -⟩ := htaking [2, 0, 2] (by decide)
  have hsame : c = b := Except.ok.inj (htaken.symm.trans rfl)
  subst hsame
  exact ⟨hconsistent, htaken, hselected, hagain [1, 2] (by decide), (hentry 3).1.2 (by decide)⟩

end Jagged

end ColumnFlow
