import Mathlib.Data.List.Find
import ColumnFlow.Graph.Search
import ColumnFlow.Proofs.Execution.Tasks

/-!
# Legal orders

A list of tasks is legal if each of them stands once and after everything it depends on, so
that a legal list is closed under dependencies. Tasks that conflict over a variable have to be
ordered by the dependencies themselves: then every legal list has the same commits of the
variable in front of a reader, with the same one last.
-/

namespace ColumnFlow

/-- What holds of each element of a list and those in front of it, when one more is appended. -/
theorem forall_split_snoc {α : Type} {P : List α → α → Prop} {l : List α} {a : α} :
    (∀ before b after, l ++ [a] = before ++ b :: after → P before b) ↔
      (∀ before b after, l = before ++ b :: after → P before b) ∧ P l a := by
  constructor
  · intro hall
    refine ⟨fun before b after hsplit => hall before b (after ++ [a]) ?_, hall l a [] rfl⟩
    rw [hsplit, List.append_assoc, List.cons_append]
  · rintro ⟨hall, hlast⟩ before b after hsplit
    rcases List.eq_nil_or_concat after with rfl | ⟨after, c, rfl⟩
    · obtain ⟨rfl, hsame⟩ := List.append_inj' hsplit rfl
      cases hsame
      exact hlast
    · rw [List.concat_eq_append, ← List.cons_append, ← List.append_assoc] at hsplit
      exact hall before b after (List.append_inj' hsplit rfl).1

namespace Graph

variable {g : Graph}

/-! ## Tasks of a graph -/

theorem mem_names_iff {n : String} : n ∈ g.names ↔ ∃ t, g.get? n = some t := by
  constructor
  · intro hmem
    cases hknown : g.get? n with
    | none => exact absurd hmem ((Table.get?_eq_none_iff _ _).1 hknown)
    | some t => exact ⟨t, rfl⟩
  · rintro ⟨t, hknown⟩
    exact mem_names_of_get? hknown

theorem contains_iff {n : String} : g.contains n = true ↔ n ∈ g.names := Table.contains_iff _ _

theorem dependenciesOf_eq {n : String} {t : Task} (h : g.get? n = some t) :
    g.dependenciesOf n = t.dependencies := by
  rw [dependenciesOf, h]
  rfl

/-- What a name depends on is what its task does, if there is one. -/
theorem mem_dependenciesOf_iff {n d : String} :
    d ∈ g.dependenciesOf n ↔ ∃ t, g.get? n = some t ∧ d ∈ t.dependencies := by
  unfold dependenciesOf
  cases g.get? n with
  | none => simp
  | some t => simp

/-! ## Legal lists -/

/-- The tasks can be run one after the other when those in `done` have been. -/
def LegalAfter (g : Graph) (done : List String) : List String → Prop
  | [] => True
  | n :: rest =>
    n ∉ done ∧ (∃ t, g.get? n = some t ∧ ∀ d ∈ t.dependencies, d ∈ done) ∧
      g.LegalAfter (done ++ [n]) rest

/-- Each task stands once and after everything it depends on. -/
def Legal (g : Graph) (order : List String) : Prop := g.LegalAfter [] order

/-- A list is legal in two parts, the second after what the first has done. -/
theorem legalAfter_append {done first rest : List String} :
    g.LegalAfter done (first ++ rest) ↔
      g.LegalAfter done first ∧ g.LegalAfter (done ++ first) rest := by
  induction first generalizing done with
  | nil => simp [LegalAfter]
  | cons n ns ih => simp [LegalAfter, ih, and_assoc]

theorem legal_append {first rest : List String} :
    g.Legal (first ++ rest) ↔ g.Legal first ∧ g.LegalAfter first rest := by
  rw [Legal, legalAfter_append]
  rfl

/-- What one task needs to be appended. -/
theorem legal_snoc {done : List String} {n : String} :
    g.Legal (done ++ [n]) ↔
      g.Legal done ∧ n ∉ done ∧ ∃ t, g.get? n = some t ∧ ∀ d ∈ t.dependencies, d ∈ done := by
  rw [legal_append]
  simp [LegalAfter]

theorem Legal.split {before after : List String} {n : String}
    (h : g.Legal (before ++ n :: after)) : g.Legal (before ++ [n]) := by
  rw [← List.singleton_append, ← List.append_assoc] at h
  exact (legal_append.1 h).1

theorem Legal.not_mem {before after : List String} {n : String}
    (h : g.Legal (before ++ n :: after)) : n ∉ before :=
  (legal_snoc.1 h.split).2.1

/-- A legal list has no task twice and none that was done before. -/
theorem legalAfter_nodup {done order : List String} (h : g.LegalAfter done order) :
    order.Nodup ∧ ∀ n ∈ order, n ∉ done := by
  induction order generalizing done with
  | nil => simp
  | cons n ns ih =>
    obtain ⟨hfresh, _, hrest⟩ := h
    obtain ⟨hnodup, hapart⟩ := ih hrest
    constructor
    · refine List.nodup_cons.2 ⟨fun hmem => ?_, hnodup⟩
      exact hapart n hmem (by simp)
    · intro m hmem
      rcases List.mem_cons.1 hmem with rfl | hmem
      · exact hfresh
      · exact fun hold => hapart m hmem (List.mem_append_left _ hold)

theorem Legal.nodup {order : List String} (h : g.Legal order) : order.Nodup :=
  (legalAfter_nodup h).1

/-- A legal list is closed under dependencies and within the graph. -/
theorem Legal.closed {order : List String} {n : String} (h : g.Legal order) (hmem : n ∈ order) :
    ∃ t, g.get? n = some t ∧ ∀ d ∈ t.dependencies, d ∈ order := by
  obtain ⟨before, after, rfl⟩ := List.append_of_mem hmem
  obtain ⟨_, _, t, hknown, hinside⟩ := legal_snoc.1 h.split
  exact ⟨t, hknown, fun d hd => List.mem_append_left _ (hinside d hd)⟩

theorem Legal.mem_names {order : List String} {n : String} (hlegal : g.Legal order)
    (hmem : n ∈ order) : n ∈ g.names := by
  obtain ⟨t, hknown, _⟩ := hlegal.closed hmem
  exact mem_names_of_get? hknown

/-! ## Ancestors -/

/-- The second task depends on the first, directly or through other tasks. -/
inductive Before (g : Graph) (a : String) : String → Prop where
  | direct {b : String} : a ∈ g.dependenciesOf b → Before g a b
  | through {b c : String} : Before g a b → b ∈ g.dependenciesOf c → Before g a c

theorem Before.trans {a b c : String} (h : g.Before a b) (h' : g.Before b c) : g.Before a c := by
  induction h' with
  | direct hedge => exact .through h hedge
  | through _ hedge ih => exact .through ih hedge

/-- A property that passes on to dependencies passes on to everything a task depends on. -/
theorem Before.of_passes {P : String → Prop} {a b : String} (h : g.Before a b)
    (hpasses : ∀ n, P n → ∀ d ∈ g.dependenciesOf n, P d) (hown : P b) : P a := by
  induction h with
  | direct hedge => exact hpasses _ hown _ hedge
  | through _ hedge ih => exact ih (hpasses _ hown _ hedge)

/-- Only tasks of the graph depend on anything. -/
theorem Before.mem_names {a b : String} (h : g.Before a b) : b ∈ g.names := by
  cases h with
  | direct hedge | through _ hedge =>
    obtain ⟨t, hknown, _⟩ := mem_dependenciesOf_iff.1 hedge
    exact mem_names_of_get? hknown

/-- A legal list has the ancestors of all its tasks. -/
theorem Legal.mem_of_mem {order : List String} {a n : String} (h : g.Legal order)
    (hmem : n ∈ order) (hancestor : g.Before a n) : a ∈ order := by
  refine hancestor.of_passes (P := (· ∈ order)) (fun m hmem d hedge => ?_) hmem
  obtain ⟨t, hknown, hinside⟩ := h.closed hmem
  exact hinside d (dependenciesOf_eq hknown ▸ hedge)

/-- What a task depends on stands in front of it. -/
theorem Legal.mem_of_before {before after : List String} {a n : String}
    (h : g.Legal (before ++ n :: after)) (hancestor : g.Before a n) : a ∈ before := by
  obtain ⟨hlegal, _, t, hknown, hinside⟩ := legal_snoc.1 h.split
  cases hancestor with
  | direct hedge => exact hinside a (dependenciesOf_eq hknown ▸ hedge)
  | @through b _ hancestor hedge =>
    exact hlegal.mem_of_mem (hinside b (dependenciesOf_eq hknown ▸ hedge)) hancestor

/-- No task of a legal list depends on the last one. -/
theorem Legal.not_mem_dependenciesOf {done : List String} {m n : String}
    (h : g.Legal (done ++ [n])) (hmem : m ∈ done ++ [n]) : n ∉ g.dependenciesOf m := by
  intro hedge
  have hfresh := (legal_snoc.1 h).2.1
  rcases List.mem_append.1 hmem with hold | hnew
  · obtain ⟨t, hknown, hinside⟩ := (legal_append.1 h).1.closed hold
    exact hfresh (hinside n (dependenciesOf_eq hknown ▸ hedge))
  · cases List.mem_singleton.1 hnew
    exact hfresh (h.mem_of_before (.direct hedge))

/-- No task of a legal list is before its own ancestor. -/
theorem Legal.before_asymm {order : List String} {a b : String} (h : g.Legal order)
    (hmem : b ∈ order) (hancestor : g.Before a b) : ¬ g.Before b a := by
  intro hback
  obtain ⟨before, after, rfl⟩ := List.append_of_mem hmem
  have hfirst := h.mem_of_before hancestor
  exact h.not_mem ((legal_append.1 h).1.mem_of_mem hfirst hback)

/-! ## Commits of a variable -/

/-- The variable that a task of the graph binds. -/
def committed? (g : Graph) (n : String) : Option String := (g.get? n).bind Task.committed?

/-- The variables that a task of the graph reads. -/
def columnsOf (g : Graph) (n : String) : List String := ((g.get? n).map Task.columns).getD []

/-- The last commit of a variable in a list of tasks. -/
def lastCommit (g : Graph) (x : String) (order : List String) : Option String :=
  order.reverse.find? fun n => decide (g.committed? n = some x)

/-- Of two tasks of which one binds a variable and the other binds or reads it, one depends on
the other. -/
def Ordered (g : Graph) : Prop :=
  ∀ {k n x : String}, g.committed? k = some x → g.committed? n = some x ∨ x ∈ g.columnsOf n →
    k ≠ n → g.Before k n ∨ g.Before n k

/-- The last commit of a variable is the task at the end, if that commits it. -/
theorem lastCommit_snoc {x n : String} {order : List String} :
    g.lastCommit x (order ++ [n]) =
      if g.committed? n = some x then some n else g.lastCommit x order := by
  simp only [lastCommit, List.reverse_append, List.reverse_singleton, List.singleton_append,
    List.find?_cons]
  by_cases h : g.committed? n = some x <;> simp [h]

/-- Tasks that do not commit a variable leave its last commit as it is. -/
theorem lastCommit_append {x : String} {order more : List String}
    (hnone : ∀ n ∈ more, g.committed? n ≠ some x) :
    g.lastCommit x (order ++ more) = g.lastCommit x order := by
  have hnothing : more.reverse.find? (fun n => decide (g.committed? n = some x)) = .none :=
    List.find?_eq_none.2 fun n hmem => by simpa using hnone n (List.mem_reverse.1 hmem)
  rw [lastCommit, List.reverse_append, List.find?_append, hnothing]
  rfl

theorem lastCommit_eq_none_iff {x : String} {order : List String} :
    g.lastCommit x order = none ↔ ∀ n ∈ order, g.committed? n ≠ some x := by
  simp [lastCommit]

/-- The last commit of a variable depends on all others. -/
theorem lastCommit_spec {x k : String} {order : List String} (hordered : g.Ordered)
    (hlegal : g.Legal order) (hlast : g.lastCommit x order = some k) :
    k ∈ order ∧ g.committed? k = some x ∧
      ∀ j ∈ order, g.committed? j = some x → j ≠ k → g.Before j k := by
  obtain ⟨hcommits, behind, front, hsplit, hothers⟩ := List.find?_eq_some_iff_append.1 hlast
  have hcommits : g.committed? k = some x := of_decide_eq_true hcommits
  have horder_eq : order = front.reverse ++ k :: behind.reverse := by
    rw [← List.reverse_reverse order, hsplit]
    simp
  subst horder_eq
  refine ⟨by simp, hcommits, ?_⟩
  intro j hmem hbinds hne
  rcases hordered hcommits (.inl hbinds) hne.symm with hwrong | hright
  · have hinFront : j ∈ front.reverse := by
      rcases List.mem_append.1 hmem with hinFront | hrest
      · exact hinFront
      · rcases List.mem_cons.1 hrest with rfl | hinBack
        · exact absurd rfl hne
        · have := hothers j (List.mem_reverse.1 hinBack)
          simp [hbinds] at this
    exact absurd ((legal_append.1 hlegal).1.mem_of_mem hinFront hwrong) hlegal.not_mem
  · exact hright

/-- Legal lists with the same commits of a variable have the same one last. -/
theorem lastCommit_congr {x : String} {order order' : List String} (hordered : g.Ordered)
    (hlegal : g.Legal order) (hlegal' : g.Legal order')
    (hsame : ∀ k, g.committed? k = some x → (k ∈ order ↔ k ∈ order')) :
    g.lastCommit x order = g.lastCommit x order' := by
  cases hlast : g.lastCommit x order with
  | none =>
    refine (lastCommit_eq_none_iff.2 fun n hmem hbinds => ?_).symm
    exact lastCommit_eq_none_iff.1 hlast n ((hsame n hbinds).2 hmem) hbinds
  | some k =>
    obtain ⟨hmem, hbinds, hlatest⟩ := lastCommit_spec hordered hlegal hlast
    cases hlast' : g.lastCommit x order' with
    | none => exact absurd hbinds (lastCommit_eq_none_iff.1 hlast' k ((hsame k hbinds).1 hmem))
    | some k' =>
      obtain ⟨hmem', hbinds', hlatest'⟩ := lastCommit_spec hordered hlegal' hlast'
      by_cases heq : k = k'
      · rw [heq]
      · have hforward := hlatest k' ((hsame k' hbinds').2 hmem') hbinds' (Ne.symm heq)
        have hback := hlatest' k ((hsame k hbinds).1 hmem) hbinds heq
        exact absurd hback (hlegal.before_asymm hmem hforward)

/-- In front of a reader of a variable, every legal list has the same last commit of it. -/
theorem lastCommit_of_reader {x n : String} {before before' : List String} (hordered : g.Ordered)
    (hreads : x ∈ g.columnsOf n) (hlegal : g.Legal (before ++ [n]))
    (hlegal' : g.Legal (before' ++ [n])) : g.lastCommit x before = g.lastCommit x before' := by
  have hmoves {a b : List String} (hla : g.Legal (a ++ [n])) (hlb : g.Legal (b ++ [n])) :
      ∀ k, g.committed? k = some x → k ∈ a → k ∈ b := by
    intro k hbinds hmem
    have hne : k ≠ n := by
      rintro rfl
      exact hla.not_mem hmem
    rcases hordered hbinds (.inr hreads) hne with hancestor | hdescendant
    · exact hlb.mem_of_before hancestor
    · exact absurd ((legal_append.1 hla).1.mem_of_mem hmem hdescendant) hla.not_mem
  exact lastCommit_congr hordered (legal_append.1 hlegal).1 (legal_append.1 hlegal').1
    fun k hbinds => ⟨hmoves hlegal hlegal' k hbinds, hmoves hlegal' hlegal k hbinds⟩

/-! ## Larger graphs -/

/-- The other graph has the tasks of this one as they are. -/
def Extends (g g' : Graph) : Prop := ∀ n t, g.get? n = some t → g'.get? n = some t

variable {g' : Graph}

/-- A larger graph has the same tasks under the names of the smaller one. -/
theorem Extends.get?_eq {n : String} (h : g.Extends g') (hknown : n ∈ g.names) :
    g'.get? n = g.get? n := by
  obtain ⟨t, htask⟩ := mem_names_iff.1 hknown
  rw [htask, h n t htask]

/-- A legal list stays legal in a larger graph. -/
theorem Extends.legal {order : List String} (h : g.Extends g') (hlegal : g.Legal order) :
    g'.Legal order := by
  have hlater : ∀ (done order : List String),
      g.LegalAfter done order → g'.LegalAfter done order := by
    intro done order
    induction order generalizing done with
    | nil => exact fun _ => trivial
    | cons n ns ih =>
      rintro ⟨hfresh, ⟨t, hknown, hinside⟩, hrest⟩
      exact ⟨hfresh, ⟨t, h n t hknown, hinside⟩, ih _ hrest⟩
  exact hlater [] order hlegal

theorem Extends.dependenciesOf_subset {n d : String} (h : g.Extends g')
    (hedge : d ∈ g.dependenciesOf n) : d ∈ g'.dependenciesOf n := by
  obtain ⟨t, hknown, hneed⟩ := mem_dependenciesOf_iff.1 hedge
  exact mem_dependenciesOf_iff.2 ⟨t, h n t hknown, hneed⟩

/-- What comes before a task still does in a larger graph. -/
theorem Extends.before {a b : String} (h : g.Extends g') (hbefore : g.Before a b) :
    g'.Before a b := by
  induction hbefore with
  | direct hedge => exact .direct (h.dependenciesOf_subset hedge)
  | through _ hedge ih => exact .through ih (h.dependenciesOf_subset hedge)

theorem Extends.committed?_eq {n : String} (h : g.Extends g') (hknown : n ∈ g.names) :
    g'.committed? n = g.committed? n := by
  rw [committed?, committed?, h.get?_eq hknown]

theorem Extends.columnsOf_eq {n : String} (h : g.Extends g') (hknown : n ∈ g.names) :
    g'.columnsOf n = g.columnsOf n := by
  rw [columnsOf, columnsOf, h.get?_eq hknown]

theorem Extends.lastCommit_eq {x : String} {order : List String} (h : g.Extends g')
    (hknown : ∀ n ∈ order, n ∈ g.names) : g'.lastCommit x order = g.lastCommit x order := by
  refine List.find?_congr fun n hmem => ?_
  rw [h.committed?_eq (hknown n (List.mem_reverse.1 hmem))]

end Graph

end ColumnFlow
