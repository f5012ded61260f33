/-!
# Computations that succeed

When a computation with errors succeeds, so has each of its steps.
-/

namespace ColumnFlow

variable {ε ε' α β : Type}

@[simp] theorem ok_bind {a : α} {f : α → Except ε β} : (Except.ok a >>= f) = f a := rfl

theorem bind_eq_ok_iff {x : Except ε α} {f : α → Except ε β} {b : β} :
    x >>= f = .ok b ↔ ∃ a, x = .ok a ∧ f a = .ok b := by
  cases x with
  | error e => simp [bind, Except.bind]
  | ok a => simp [bind, Except.bind]

theorem map_eq_ok_iff {x : Except ε α} {f : α → β} {b : β} :
    x.map f = .ok b ↔ ∃ a, x = .ok a ∧ f a = b := by
  cases x with
  | error e => simp [Except.map]
  | ok a => simp [Except.map]

theorem mapError_eq_ok_iff {x : Except ε α} {f : ε → ε'} {a : α} :
    x.mapError f = .ok a ↔ x = .ok a := by
  cases x with
  | error e => exact iff_of_false (fun h => by cases h) fun h => by cases h
  | ok b => exact ⟨fun h => by cases h; rfl, fun h => by cases h; rfl⟩

/-- A computation either succeeds or has an error. -/
theorem not_ok_iff {x : Except ε α} : (∀ a, x ≠ .ok a) ↔ ∃ e, x = .error e := by
  cases x with
  | error e => simp
  | ok a => simp

/-- A computation on each element of a list that always succeeds. -/
theorem mapM_eq_ok_map {f : α → Except ε β} {g : α → β} {xs : List α}
    (heach : ∀ x ∈ xs, f x = .ok (g x)) : xs.mapM f = .ok (xs.map g) := by
  induction xs with
  | nil => rfl
  | cons x xs ih =>
    obtain ⟨hfirst, hrest⟩ := List.forall_mem_cons.1 heach
    rw [List.mapM_cons, hfirst, ok_bind, ih hrest]
    rfl

theorem exists_mapM_eq_ok {f : α → Except ε β} {xs : List α} (heach : ∀ x ∈ xs, ∃ y, f x = .ok y) :
    ∃ ys, xs.mapM f = .ok ys := by
  induction xs with
  | nil => exact ⟨[], rfl⟩
  | cons x xs ih =>
    obtain ⟨⟨y, hfirst⟩, hrest⟩ := List.forall_mem_cons.1 heach
    obtain ⟨ys, hrest⟩ := ih hrest
    refine ⟨y :: ys, ?_⟩
    rw [List.mapM_cons, hfirst, ok_bind, hrest]
    rfl

theorem exists_of_mapM_eq_ok {f : α → Except ε β} {xs : List α} {ys : List β}
    (hok : xs.mapM f = .ok ys) : ∀ x ∈ xs, ∃ y, f x = .ok y := by
  induction xs generalizing ys with
  | nil => exact List.forall_mem_nil _
  | cons x xs ih =>
    rw [List.mapM_cons] at hok
    obtain ⟨z, hfirst, hok⟩ := bind_eq_ok_iff.1 hok
    obtain ⟨zs, hrest, -⟩ := bind_eq_ok_iff.1 hok
    exact List.forall_mem_cons.2 ⟨⟨z, hfirst⟩, ih hrest⟩

/-- The results are those of the elements. -/
theorem mem_of_mapM_eq_ok {f : α → Except ε β} {xs : List α} {ys : List β}
    (hok : xs.mapM f = .ok ys) (y : β) : y ∈ ys ↔ ∃ x ∈ xs, f x = .ok y := by
  induction xs generalizing ys with
  | nil =>
    cases hok
    simp
  | cons x xs ih =>
    rw [List.mapM_cons] at hok
    obtain ⟨z, hfirst, hok⟩ := bind_eq_ok_iff.1 hok
    obtain ⟨zs, hrest, hok⟩ := bind_eq_ok_iff.1 hok
    cases hok
    simp [ih hrest, hfirst, eq_comm]

theorem length_of_mapM_eq_ok {f : α → Except ε β} {xs : List α} {ys : List β}
    (hok : xs.mapM f = .ok ys) : ys.length = xs.length := by
  induction xs generalizing ys with
  | nil =>
    cases hok
    rfl
  | cons x xs ih =>
    rw [List.mapM_cons] at hok
    obtain ⟨z, -, hok⟩ := bind_eq_ok_iff.1 hok
    obtain ⟨zs, hrest, hok⟩ := bind_eq_ok_iff.1 hok
    cases hok
    exact congrArg (· + 1) (ih hrest)

/-- The first element on which the computation has an error is that of the whole list. -/
theorem mapM_eq_error {f : α → Except ε β} {before after : List α} {x : α} {e : ε}
    (hearlier : ∀ y ∈ before, ∃ b, f y = .ok b) (herror : f x = .error e) :
    (before ++ x :: after).mapM f = .error e := by
  induction before with
  | nil =>
    rw [List.nil_append, List.mapM_cons, herror]
    rfl
  | cons y ys ih =>
    obtain ⟨⟨b, hfirst⟩, hrest⟩ := List.forall_mem_cons.1 hearlier
    rw [List.cons_append, List.mapM_cons, hfirst, ok_bind, ih hrest]
    rfl

end ColumnFlow
