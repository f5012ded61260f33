/-!
# Tables

A `Table` binds names to values and remembers the order in which the names were
first bound. Environments, graphs and registries are tables. The view of a table
is `get?`; each operation states what it does to the view and to the order.
-/

namespace ColumnFlow

/-- A finite map from names, in the order of first binding. -/
structure Table (α : Type) where
  entries : List (String × α)
  nodup : (entries.map Prod.fst).Nodup

namespace Table

variable {α β : Type}

/-- The table without bindings. -/
def empty : Table α := ⟨[], List.nodup_nil⟩

instance : Inhabited (Table α) := ⟨empty⟩

/-- The bound names, earliest first. -/
def keys (t : Table α) : List String := t.entries.map Prod.fst

/-- The bound values, in the order of their names. -/
def values (t : Table α) : List α := t.entries.map Prod.snd

/-- The value bound to `k`. -/
def get? (t : Table α) (k : String) : Option α := t.entries.lookup k

/-- Whether `k` is bound. -/
def contains (t : Table α) (k : String) : Bool := decide (k ∈ t.keys)

/-- The number of bound names. -/
def size (t : Table α) : Nat := t.entries.length

/-- The place of `k` in the order of first binding. -/
def indexOf? (t : Table α) (k : String) : Option Nat := t.keys.idxOf? k

-- ---------------------------------------------------------------------------
-- Changing a table
-- ---------------------------------------------------------------------------

/-- Apply `f` to the value bound to `k`, if there is one. -/
def modify (t : Table α) (k : String) (f : α → α) : Table α where
  entries := t.entries.map fun e => (e.1, if e.1 = k then f e.2 else e.2)
  nodup := by simpa [List.map_map, Function.comp_def] using t.nodup

/-- Bind `k` to `v`. A name that is already bound keeps its place. -/
def insert (t : Table α) (k : String) (v : α) : Table α :=
  if h : k ∈ t.keys then t.modify k fun _ => v
  else
    { entries := t.entries ++ [(k, v)]
      nodup := by
        rw [List.map_append]
        refine List.nodup_append.2 ⟨t.nodup, by simp, ?_⟩
        intro a ha b hb
        simp only [List.map_cons, List.map_nil, List.mem_singleton] at hb
        rintro rfl
        exact h (hb ▸ ha) }

/-- Remove the binding of `k`. -/
def erase (t : Table α) (k : String) : Table α where
  entries := t.entries.filter fun e => e.1 ≠ k
  nodup := t.nodup.sublist (List.Sublist.map _ List.filter_sublist)

/-- Bind each pair in turn, later ones over earlier ones. -/
def insertAll (t : Table α) (pairs : List (String × α)) : Table α :=
  pairs.foldl (fun acc e => acc.insert e.1 e.2) t

/-- The table of a list of pairs, later ones over earlier ones. -/
def ofList (pairs : List (String × α)) : Table α := empty.insertAll pairs

-- ---------------------------------------------------------------------------
-- What the operations do to the view
-- ---------------------------------------------------------------------------

@[simp] theorem get?_empty (k : String) : (empty : Table α).get? k = none := rfl

@[simp] theorem keys_empty : (empty : Table α).keys = [] := rfl

@[simp] theorem keys_modify (t : Table α) (k : String) (f : α → α) :
    (t.modify k f).keys = t.keys := by
  simp [modify, keys, List.map_map, Function.comp_def]

theorem contains_iff (t : Table α) (k : String) : t.contains k = true ↔ k ∈ t.keys := by
  simp [contains]

theorem get?_eq_none_iff (t : Table α) (k : String) : t.get? k = none ↔ k ∉ t.keys := by
  obtain ⟨es, hes⟩ := t
  simp only [get?, keys]
  clear hes
  induction es with
  | nil => simp
  | cons e es ih =>
    obtain ⟨a, v⟩ := e
    rw [List.lookup_cons]
    by_cases h : k = a
    · simp [h]
    · have hb : (k == a) = false := by simpa using h
      simp [hb, h, ih]

theorem contains_eq_isSome (t : Table α) (k : String) : t.contains k = (t.get? k).isSome := by
  rw [Bool.eq_iff_iff, contains_iff, Option.isSome_iff_ne_none, Ne, get?_eq_none_iff,
    Decidable.not_not]

/-- Modifying changes the value of one key and no other. -/
theorem get?_modify (t : Table α) (k : String) (f : α → α) (j : String) :
    (t.modify k f).get? j = if j = k then (t.get? k).map f else t.get? j := by
  obtain ⟨es, hes⟩ := t
  simp only [get?, modify]
  clear hes
  induction es with
  | nil => simp
  | cons e es ih =>
    obtain ⟨a, v⟩ := e
    simp only [List.map_cons, List.lookup_cons, ih]
    by_cases hj : j = k
    · subst hj
      by_cases ha : a = j
      · subst ha; simp
      · have hb : (j == a) = false := by simpa using fun h => ha h.symm
        simp [hb]
    · by_cases ha : j = a
      · subst ha; simp [hj]
      · have hb : (j == a) = false := by simpa using ha
        simp [hb, hj]

/-- Inserting binds one key and leaves all others. -/
theorem get?_insert (t : Table α) (k : String) (v : α) (j : String) :
    (t.insert k v).get? j = if j = k then some v else t.get? j := by
  unfold insert
  split
  · next h =>
    rw [get?_modify]
    split
    · next hj =>
      subst hj
      cases hg : t.get? j with
      | none => exact absurd h ((get?_eq_none_iff t j).1 hg)
      | some w => rfl
    · rfl
  · next h =>
    obtain ⟨es, hes⟩ := t
    simp only [get?, keys] at h ⊢
    clear hes
    induction es with
    | nil =>
      by_cases hj : j = k
      · simp [hj]
      · simp [hj]
    | cons e es ih =>
      obtain ⟨a, w⟩ := e
      simp only [List.map_cons, List.mem_cons, not_or] at h
      simp only [List.cons_append, List.lookup_cons, ih h.2]
      by_cases ha : j = a
      · subst ha
        have : j ≠ k := fun hk => h.1 hk.symm
        simp [this]
      · have hb : (j == a) = false := by simpa using ha
        simp [hb]

/-- A new key comes last, and a key that is there keeps its place. -/
theorem keys_insert (t : Table α) (k : String) (v : α) :
    (t.insert k v).keys = if k ∈ t.keys then t.keys else t.keys ++ [k] := by
  unfold insert
  split
  · simp
  · simp [keys]

theorem keys_erase (t : Table α) (k : String) : (t.erase k).keys = t.keys.filter (· ≠ k) := by
  simp [erase, keys, List.filter_map, Function.comp_def]

/-- Erasing unbinds one key and leaves all others. -/
theorem get?_erase (t : Table α) (k j : String) :
    (t.erase k).get? j = if j = k then none else t.get? j := by
  obtain ⟨es, hes⟩ := t
  simp only [get?, erase]
  clear hes
  induction es with
  | nil => simp
  | cons e es ih =>
    obtain ⟨a, v⟩ := e
    by_cases ha : a = k
    · subst ha
      rw [List.filter_cons_of_neg (by simp), ih, List.lookup_cons]
      by_cases hj : j = a
      · simp [hj]
      · have hb : (j == a) = false := by simpa using hj
        simp [hb]
    · rw [List.filter_cons_of_pos (by simpa using ha), List.lookup_cons, List.lookup_cons, ih]
      by_cases hj : j = a
      · subst hj; simp [ha]
      · have hb : (j == a) = false := by simpa using hj
        simp [hb]

/-- A binding of the table is what the table answers for its name. -/
theorem get?_eq_some_iff (t : Table α) (k : String) (v : α) :
    t.get? k = some v ↔ (k, v) ∈ t.entries := by
  obtain ⟨es, hes⟩ := t
  simp only [get?]
  induction es with
  | nil => simp
  | cons e es ih =>
    obtain ⟨a, w⟩ := e
    simp only [List.map_cons, List.nodup_cons] at hes
    rw [List.lookup_cons, List.mem_cons]
    by_cases ha : k = a
    · subst ha
      have habsent : (k, v) ∉ es := fun h => hes.1 (List.mem_map_of_mem h)
      simp [habsent, eq_comm]
    · have hb : (k == a) = false := by simpa using ha
      simp [hb, ih hes.2, ha]

@[simp] theorem contains_insert (t : Table α) (k : String) (v : α) (j : String) :
    (t.insert k v).contains j = (decide (j = k) || t.contains j) := by
  simp only [contains, keys_insert]
  split
  · next h =>
    by_cases hj : j = k
    · subst hj; simp [h]
    · simp [hj]
  · next h => simp [Bool.or_comm]

/-- A name that is not bound is bound at the end. -/
theorem entries_insert {t : Table α} {k : String} (hfresh : k ∉ t.keys) (v : α) :
    (t.insert k v).entries = t.entries ++ [(k, v)] := by
  rw [insert, dif_neg hfresh]

theorem get?_insertAll_of_not_mem (t : Table α) {pairs : List (String × α)} {k : String}
    (habsent : k ∉ pairs.map Prod.fst) : (t.insertAll pairs).get? k = t.get? k := by
  unfold insertAll
  induction pairs generalizing t with
  | nil => rfl
  | cons e es ih =>
    rw [List.map_cons, List.mem_cons, not_or] at habsent
    rw [List.foldl_cons, ih _ habsent.2, get?_insert, if_neg habsent.1]

/-- A name that is always bound to one value has it at the end. -/
theorem get?_insertAll_of_mem (t : Table α) {pairs : List (String × α)} {k : String} {v : α}
    (hmem : (k, v) ∈ pairs) (honly : ∀ w, (k, w) ∈ pairs → w = v) :
    (t.insertAll pairs).get? k = some v := by
  unfold insertAll
  induction pairs generalizing t with
  | nil => cases hmem
  | cons e es ih =>
    rw [List.foldl_cons]
    by_cases hlater : (k, v) ∈ es
    · exact ih _ hlater fun w h => honly w (List.mem_cons_of_mem _ h)
    · have hfirst : e = (k, v) := ((List.mem_cons.1 hmem).resolve_right hlater).symm
      have habsent : k ∉ es.map Prod.fst := by
        intro h
        obtain ⟨⟨j, w⟩, hinside, rfl⟩ := List.mem_map.1 h
        exact hlater (honly w (List.mem_cons_of_mem _ hinside) ▸ hinside)
      subst hfirst
      exact (get?_insertAll_of_not_mem _ habsent).trans (by rw [get?_insert, if_pos rfl])

/-- Names that are not bound are bound at the end, in turn. -/
theorem entries_insertAll {t : Table α} {pairs : List (String × α)}
    (hnodup : (pairs.map Prod.fst).Nodup) (hfresh : ∀ k ∈ pairs.map Prod.fst, k ∉ t.keys) :
    (t.insertAll pairs).entries = t.entries ++ pairs := by
  unfold insertAll
  induction pairs generalizing t with
  | nil => exact (List.append_nil _).symm
  | cons e es ih =>
    rw [List.map_cons, List.nodup_cons] at hnodup
    rw [List.map_cons, List.forall_mem_cons] at hfresh
    have hfresh' : ∀ k ∈ es.map Prod.fst, k ∉ (t.insert e.1 e.2).keys := by
      intro k hmem
      rw [keys_insert, if_neg hfresh.1, List.mem_append, List.mem_singleton, not_or]
      exact ⟨hfresh.2 k hmem, fun hsame => hnodup.1 (hsame ▸ hmem)⟩
    rw [List.foldl_cons, ih hnodup.2 hfresh', entries_insert hfresh.1, List.append_assoc]
    rfl

end Table

end ColumnFlow
