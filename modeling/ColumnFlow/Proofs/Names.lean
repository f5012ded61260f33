import ColumnFlow.Compile
import ColumnFlow.Proofs.Numbers.Numerals

/-!
# Names that are drawn once

A name is a category and a number with a dash between them. Whatever the category is, both can
be read off the name, since the number has no dash. A supply counts the numbers of each category,
so that what is drawn later differs from everything drawn before.
-/

namespace ColumnFlow.NameSupply

/-! ## Reading a name -/

/-- Texts that end in a part without dashes agree if they agree before and after the last dash. -/
theorem append_dash_inj {before before' after after' : List Char}
    (hplain : '-' ∉ after) (hplain' : '-' ∉ after')
    (hsame : before ++ '-' :: after = before' ++ '-' :: after') :
    before = before' ∧ after = after' := by
  rcases List.append_eq_append_iff.1 hsame with ⟨middle, hfront, hback⟩ | ⟨middle, hfront, hback⟩
  · cases middle with
    | nil => simp_all
    | cons c middle =>
      obtain ⟨rfl, hrest⟩ := List.cons.inj hback
      exact absurd (by simp [hrest]) hplain
  · cases middle with
    | nil => simp_all
    | cons c middle =>
      obtain ⟨rfl, hrest⟩ := List.cons.inj hback
      exact absurd (by simp [hrest]) hplain'

/-- A name tells its category and its number. -/
theorem name_inj {category category' : String} {number number' : Nat} :
    name category number = name category' number' ↔
      category = category' ∧ number = number' := by
  constructor
  · intro hsame
    have hlists : category.toList ++ '-' :: (toString number).toList =
        category'.toList ++ '-' :: (toString number').toList := by
      have := congrArg String.toList hsame
      simpa [name] using this
    obtain ⟨hfront, hdigits⟩ := append_dash_inj (Numeral.not_mem_toString (by decide) number)
      (Numeral.not_mem_toString (by decide) number') hlists
    exact ⟨String.toList_inj.1 hfront, Numeral.toString_inj.1 (String.toList_inj.1 hdigits)⟩
  · rintro ⟨rfl, rfl⟩
    rfl

/-! ## Drawn names -/

/-- The second supply is one from which further names have been drawn. -/
def Grows (s s' : NameSupply) : Prop := ∀ category, s.count category ≤ s'.count category

/-- The name is drawn on the way from one supply to the other. -/
def Drawn (s s' : NameSupply) (n : String) : Prop :=
  ∃ category number, n = name category number ∧
    s.count category ≤ number ∧ number < s'.count category

variable {s s' s'' : NameSupply} {category n m : String}

theorem Grows.refl (s : NameSupply) : s.Grows s := fun _ => Nat.le_refl _

theorem Grows.trans (h : s.Grows s') (h' : s'.Grows s'') : s.Grows s'' :=
  fun category => Nat.le_trans (h category) (h' category)

theorem grows_fresh : fresh.Grows s := fun _ => Nat.zero_le _

theorem grows_next : s.Grows (s.next category).2 := by
  intro other
  rw [count_next]
  split
  · next hsame => exact hsame ▸ Nat.le_succ _
  · exact Nat.le_refl _

theorem drawn_next : s.Drawn (s.next category).2 (s.next category).1 := by
  refine ⟨category, s.count category, rfl, Nat.le_refl _, ?_⟩
  rw [count_next, if_pos rfl]
  exact Nat.lt_succ_self _

theorem Drawn.mono_left (h : s'.Drawn s'' n) (hgrows : s.Grows s') : s.Drawn s'' n := by
  obtain ⟨category, number, heq, hlower, hupper⟩ := h
  exact ⟨category, number, heq, Nat.le_trans (hgrows category) hlower, hupper⟩

theorem Drawn.mono_right (h : s.Drawn s' n) (hgrows : s'.Grows s'') : s.Drawn s'' n := by
  obtain ⟨category, number, heq, hlower, hupper⟩ := h
  exact ⟨category, number, heq, hlower, Nat.lt_of_lt_of_le hupper (hgrows category)⟩

/-- A name that is drawn later is another one. -/
theorem Drawn.ne (h : s.Drawn s' n) (hlater : s'.Drawn s'' m) : n ≠ m := by
  rintro rfl
  obtain ⟨category, number, rfl, -, hupper⟩ := h
  obtain ⟨category', number', hsame, hlower, -⟩ := hlater
  obtain ⟨rfl, rfl⟩ := name_inj.1 hsame
  exact absurd hupper (Nat.not_lt.2 hlower)

/-- The next name has not been drawn. -/
theorem Drawn.ne_next (h : s.Drawn s' n) : n ≠ (s'.next category).1 := h.ne drawn_next

end ColumnFlow.NameSupply
