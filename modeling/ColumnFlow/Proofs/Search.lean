import ColumnFlow.Graph.Search
import ColumnFlow.Proofs.Execution.Orders
import Mathlib.Algebra.GroupWithZero.Nat

/-!
# Searches that find what there is

In a graph without cycles, tasks that are closed under dependencies can be put in legal order. How
long the searches along dependencies take is bounded by the references of the graph, which are
counted here.
-/

namespace ColumnFlow.Graph

variable {g : Graph}

/-! ## Graphs without cycles -/

/-- No task depends on itself, directly or through other tasks. -/
def Acyclic (g : Graph) : Prop := ∀ n, ¬ g.Before n n

/-- A graph of which all tasks can be put in legal order has no cycle. -/
theorem Legal.acyclic_of_all {order : List String} (hlegal : g.Legal order)
    (hall : ∀ n ∈ g.names, n ∈ order) : g.Acyclic := by
  intro n hcycle
  exact hlegal.before_asymm (hall n hcycle.mem_names) hcycle hcycle

/-- A graph whose tasks were added after everything they depend on has no cycle. -/
theorem Legal.acyclic (hlegal : g.Legal g.names) : g.Acyclic :=
  hlegal.acyclic_of_all fun _ hmem => hmem

/-- Of some tasks there is one that depends on none of the others. -/
theorem Acyclic.exists_first (hacyclic : g.Acyclic) {left : List String} (hnonempty : left ≠ []) :
    ∃ n ∈ left, ∀ m ∈ left, ¬ g.Before m n := by
  induction left with
  | nil => exact absurd rfl hnonempty
  | cons n ns ih =>
    by_cases hlast : ns = []
    · subst hlast
      exact ⟨n, List.mem_cons_self, List.forall_mem_singleton.2 (hacyclic n)⟩
    · obtain ⟨m, hmem, hfirst⟩ := ih hlast
      by_cases hedge : g.Before n m
      · have hown : ∀ k ∈ ns, ¬ g.Before k n := fun k hinside hbefore =>
          hfirst k hinside (hbefore.trans hedge)
        exact ⟨n, List.mem_cons_self, List.forall_mem_cons.2 ⟨hacyclic n, hown⟩⟩
      · exact ⟨m, List.mem_cons_of_mem _ hmem, List.forall_mem_cons.2 ⟨hedge, hfirst⟩⟩

/-- A legal list can be extended to one that has all of some tasks, if these are closed under
dependencies. -/
theorem Acyclic.exists_legal (hacyclic : g.Acyclic) {nodes : List String}
    (hknown : ∀ n ∈ nodes, n ∈ g.names) (hclosed : ∀ n ∈ nodes, ∀ d ∈ g.dependenciesOf n, d ∈ nodes)
    (placed : List String) (hlegal : g.Legal placed) :
    ∃ order, g.Legal order ∧ ∀ n ∈ nodes, n ∈ order := by
  by_cases hall : ∀ n ∈ nodes, n ∈ placed
  · exact ⟨placed, hlegal, hall⟩
  · have hnonempty : nodes.filter (· ∉ placed) ≠ [] := by simpa using hall
    obtain ⟨n, hmem, hfirst⟩ := hacyclic.exists_first hnonempty
    obtain ⟨hnode, hmissing⟩ := List.mem_filter.1 hmem
    have hfresh : n ∉ placed := of_decide_eq_true hmissing
    obtain ⟨t, htask⟩ := mem_names_iff.1 (hknown n hnode)
    have hlegal' : g.Legal (placed ++ [n]) := by
      refine legal_snoc.2 ⟨hlegal, hfresh, t, htask, fun d hneed => ?_⟩
      have hedge : d ∈ g.dependenciesOf n := dependenciesOf_eq htask ▸ hneed
      refine Decidable.byContradiction fun hmissing => ?_
      exact hfirst d (List.mem_filter.2 ⟨hclosed n hnode d hedge, decide_eq_true hmissing⟩)
        (.direct hedge)
    exact hacyclic.exists_legal hknown hclosed (placed ++ [n]) hlegal'
termination_by g.unseen placed
decreasing_by
  have hperm : g.unseen (placed ++ [n]) = g.unseen (n :: placed) := by
    simp [unseen, or_comm]
  rw [hperm]
  exact unseen_cons_lt (hknown n hnode) hfresh

/-! ## Reachability -/

/-- What is reached from tasks with a property has it, if it passes on to dependencies. -/
theorem reach_inside {P : String → Prop} (hpasses : ∀ n, P n → ∀ d ∈ g.dependenciesOf n, P d)
    {todo seen : List String} (hcoming : ∀ n ∈ todo, P n) (hentered : ∀ n ∈ seen, P n) :
    ∀ n ∈ g.reach todo seen, P n := by
  fun_induction g.reach todo seen with
  | case1 seen => exact hentered
  | case2 seen name rest hold ih => exact ih (List.forall_mem_cons.1 hcoming).2 hentered
  | case3 seen name rest hnew hunknown ih =>
    rw [List.forall_mem_cons] at hcoming
    exact ih hcoming.2 (List.forall_mem_cons.2 ⟨hcoming.1, hentered⟩)
  | case4 seen name rest hnew t hknown ih =>
    rw [List.forall_mem_cons] at hcoming
    refine ih (List.forall_mem_append.2 ⟨?_, hcoming.2⟩)
      (List.forall_mem_cons.2 ⟨hcoming.1, hentered⟩)
    rw [← dependenciesOf_eq hknown]
    exact hpasses name hcoming.1

/-! ## The references of a graph -/

/-- The number of references of the tasks that are not among `seen`. -/
def references (g : Graph) (seen : List String) : Nat :=
  (g.names.map fun n => if n ∈ seen then 0 else (g.dependenciesOf n).length).sum

theorem references_cons_le (name : String) (names seen : List String) :
    (names.map fun n => if n ∈ name :: seen then 0 else (g.dependenciesOf n).length).sum ≤
      (names.map fun n => if n ∈ seen then 0 else (g.dependenciesOf n).length).sum := by
  induction names with
  | nil => exact Nat.le_refl _
  | cons n ns ih =>
    rw [List.map_cons, List.map_cons, List.sum_cons, List.sum_cons]
    refine Nat.add_le_add ?_ ih
    by_cases hold : n ∈ seen
    · simp [hold]
    · rw [if_neg hold]
      split
      · exact Nat.zero_le _
      · exact Nat.le_refl _

/-- The references of a task that is seen first are not counted again. -/
theorem references_cons {seen : List String} {name : String} (hnew : name ∉ seen) :
    g.references (name :: seen) + (g.dependenciesOf name).length ≤ g.references seen := by
  by_cases hknown : name ∈ g.names
  · obtain ⟨before, after, hnames⟩ := List.append_of_mem hknown
    have hleft := @references_cons_le g name before seen
    have hright := @references_cons_le g name after seen
    simp only [references, hnames, List.map_append, List.map_cons, List.sum_append, List.sum_cons]
    simp only [List.mem_cons_self, if_true, hnew, if_false]
    omega
  · have hleaf : g.dependenciesOf name = [] := by
      rw [dependenciesOf, get?, (Table.get?_eq_none_iff _ _).2 hknown]
      rfl
    rw [hleaf]
    exact references_cons_le name g.names seen

/-! ## Needed tasks -/

/-- The tasks that the targets need: these themselves and all that they depend on. -/
def Needed (g : Graph) (targets : List String) (n : String) : Prop :=
  n ∈ targets ∨ ∃ t ∈ targets, g.Before n t

theorem Needed.dependency {targets : List String} {n d : String} (hneeded : g.Needed targets n)
    (hedge : d ∈ g.dependenciesOf n) : g.Needed targets d := by
  rcases hneeded with htarget | ⟨t, htarget, hbefore⟩
  · exact .inr ⟨n, htarget, .direct hedge⟩
  · exact .inr ⟨t, htarget, (Before.direct hedge).trans hbefore⟩

/-- What is needed has a property that the targets have and that passes on to dependencies. -/
theorem Needed.of_passes {P : String → Prop} {targets : List String} {n : String}
    (hneeded : g.Needed targets n) (hpasses : ∀ n, P n → ∀ d ∈ g.dependenciesOf n, P d)
    (hown : ∀ t ∈ targets, P t) : P n := by
  rcases hneeded with htarget | ⟨t, htarget, hbefore⟩
  · exact hown n htarget
  · exact hbefore.of_passes hpasses (hown t htarget)

/-- What is needed for a target is needed for all of them. -/
theorem Needed.of_target {targets : List String} {n t : String} (hneeded : g.Needed [t] n)
    (htarget : t ∈ targets) : g.Needed targets n :=
  hneeded.of_passes (fun _ hneeded _ hedge => hneeded.dependency hedge)
    (List.forall_mem_singleton.2 (.inl htarget))

theorem Needed.exists_target {targets : List String} {n : String} (hneeded : g.Needed targets n) :
    ∃ t ∈ targets, g.Needed [t] n := by
  rcases hneeded with htarget | ⟨t, htarget, hbefore⟩
  · exact ⟨n, htarget, .inl List.mem_cons_self⟩
  · exact ⟨t, htarget, .inr ⟨t, List.mem_cons_self, hbefore⟩⟩

/-- In a graph in legal order, what its tasks need is there. -/
theorem Legal.mem_of_needed {targets : List String} {n : String} (hlegal : g.Legal g.names)
    (hknown : ∀ t ∈ targets, t ∈ g.names) (hneeded : g.Needed targets n) : n ∈ g.names := by
  rcases hneeded with htarget | ⟨t, htarget, hbefore⟩
  · exact hknown n htarget
  · exact hlegal.mem_of_mem (hknown t htarget) hbefore

end ColumnFlow.Graph
