import ColumnFlow.Link
import ColumnFlow.Proofs.Compilation
import ColumnFlow.Proofs.Editing

/-!
# Attaching a definition

Attaching a compiled definition leaves the tasks that are there as they are, adds those of the
definition with edges to the latest commits that they read, and ends in a commit with edges to
every earlier task that mentions its variable.
-/

namespace ColumnFlow

/-! ## Changing graphs -/

namespace Graph

variable {g g' part : Graph}

/-- A new edge is kept with the task it leads to, and nothing else changes. -/
theorem appendDependency_ok {task extra : String}
    (happended : g.appendDependency task extra = .ok g') :
    g'.names = g.names ∧ extra ∈ g.names ∧ (∀ n, n ≠ task → g'.get? n = g.get? n) ∧
      ∀ t, g.get? task = some t → ∃ after, g'.get? task = some ⟨t.work, t.args, after⟩ ∧
        ∀ a, a ∈ after ↔ a ∈ t.after ∨ a = extra := by
  obtain ⟨-, hknown, -, hreordered⟩ := reordered_of_appendDependency happended
  refine ⟨hreordered.names, hknown, hreordered.others, fun t hget => ?_⟩
  exact ⟨_, hreordered.own t hget, fun a => mem_after_iff⟩

/-- The edges that lead to a task are kept with it. -/
theorem addEdges_ok {edges : List (String × String)} (hadded : Linker.addEdges g edges = .ok g') :
    g'.names = g.names ∧ (∀ e ∈ edges, e.2 ∈ g.names) ∧
      (∀ n, (∀ e ∈ edges, n ≠ e.1) → g'.get? n = g.get? n) ∧
      ∀ n t, g.get? n = some t → ∃ after, g'.get? n = some ⟨t.work, t.args, after⟩ ∧
        ∀ a, a ∈ after ↔ a ∈ t.after ∨ (n, a) ∈ edges := by
  induction edges generalizing g with
  | nil =>
    cases hadded
    refine ⟨rfl, by simp, fun _ _ => rfl, fun n t hknown => ⟨t.after, hknown, by simp⟩⟩
  | cons e es ih =>
    obtain ⟨m, hfirst, hrest⟩ := bind_eq_ok_iff.1 (List.foldlM_cons.symm.trans hadded)
    obtain ⟨hnames, hinside, hkept, hgained⟩ := appendDependency_ok hfirst
    obtain ⟨hnames', hinside', hkept', hgained'⟩ := ih hrest
    refine ⟨hnames'.trans hnames, ?_, ?_, ?_⟩
    · exact List.forall_mem_cons.2 ⟨hinside, fun e hmem => hnames ▸ hinside' e hmem⟩
    · intro n hother
      rw [List.forall_mem_cons] at hother
      rw [hkept' n hother.2, hkept n hother.1]
    · intro n t hknown
      by_cases hsame : n = e.1
      · subst hsame
        obtain ⟨mid, hknown, hmembers⟩ := hgained t hknown
        obtain ⟨after, hknown, hmembers'⟩ := hgained' e.1 _ hknown
        refine ⟨after, hknown, fun a => ?_⟩
        rw [hmembers' a, hmembers a, List.mem_cons, Prod.ext_iff, or_assoc]
        simp
      · obtain ⟨after, hknown, hmembers⟩ := hgained' n t ((hkept n hsame).trans hknown)
        refine ⟨after, hknown, fun a => ?_⟩
        have hother : (n, a) ≠ e := fun heq => hsame (congrArg Prod.fst heq)
        rw [hmembers a, List.mem_cons, or_iff_right hother]

/-- A task can wait for another that waits for none. -/
theorem exists_addEdges {task extra : String}
    (hknown : g.contains task = true) (hknown' : g.contains extra = true) (hother : task ≠ extra)
    (hfree : g.dependenciesOf extra = []) :
    ∃ g', Linker.addEdges g [(task, extra)] = .ok g' := by
  have hapart : g.dependsOn extra task = false := by
    obtain ⟨t, hget⟩ := mem_names_iff.1 ((Table.contains_iff _ _).1 hknown')
    simp only [dependenciesOf_eq hget] at hfree
    rw [dependsOn, reach, if_neg (by simp)]
    split
    · next hnone =>
      rw [hget] at hnone
      cases hnone
    · next t' htask' =>
      cases hget.symm.trans htask'
      simp only [hfree, List.nil_append, reach]
      simpa using hother
  obtain ⟨g', happended⟩ : ∃ g', g.appendDependency task extra = .ok g' := by
    unfold appendDependency
    rw [hknown, hknown', hapart]
    simp [hother]
  exact ⟨g', List.foldlM_cons.trans (bind_eq_ok_iff.2 ⟨g', happended, rfl⟩)⟩

/-- The tasks of the other graph are added at the end, under new names. -/
theorem merge_ok (hmerged : g.merge part = .ok g') :
    g'.names = g.names ++ part.names ∧ (∀ n ∈ part.names, n ∉ g.names) ∧
      (∀ n t, g.get? n = some t → g'.get? n = some t) ∧
      ∀ n t, part.get? n = some t → g'.get? n = some t := by
  obtain ⟨hfresh, -⟩ := merge_eq_ok_iff.1 hmerged
  refine ⟨names_of_merge hmerged, hfresh, ?_, ?_⟩
  · exact fun n t hknown => (get?_of_merge hmerged n t).2 (.inl hknown)
  · exact fun n t hknown => (get?_of_merge hmerged n t).2 (.inr hknown)

theorem mem_dependents_iff {name n : String} :
    n ∈ g.dependents name ↔ ∃ t, g.get? n = some t ∧ t.mentions name = true := by
  unfold dependents
  constructor
  · intro hmem
    obtain ⟨⟨m, t⟩, hinside, rfl⟩ := List.mem_map.1 hmem
    obtain ⟨hinside, hmentions⟩ := List.mem_filter.1 hinside
    exact ⟨t, (Table.get?_eq_some_iff _ _ _).2 hinside, hmentions⟩
  · rintro ⟨t, hknown, hmentions⟩
    refine List.mem_map.2 ⟨(n, t), List.mem_filter.2 ⟨?_, hmentions⟩, rfl⟩
    exact (Table.get?_eq_some_iff _ _ _).1 hknown

end Graph

/-! ## Edges of a definition -/

namespace Linker

variable {l l' : Linker} {part : Graph} {target output : String}

/-- A task of the definition waits for the latest commits of what it mentions. -/
theorem mem_readEdges_iff {n c : String} :
    (n, c) ∈ l.readEdges part ↔
      ∃ x t, l.latest.get? x = some c ∧ part.get? n = some t ∧ t.mentions x = true := by
  unfold readEdges
  constructor
  · intro hmem
    obtain ⟨⟨x, c'⟩, hlatest, hmem⟩ := List.mem_flatMap.1 hmem
    obtain ⟨m, hreader, heq⟩ := List.mem_map.1 hmem
    cases heq
    obtain ⟨t, hknown, hmentions⟩ := Graph.mem_dependents_iff.1 hreader
    exact ⟨x, t, (Table.get?_eq_some_iff _ _ _).2 hlatest, hknown, hmentions⟩
  · rintro ⟨x, t, hlatest, hknown, hmentions⟩
    refine List.mem_flatMap.2 ⟨(x, c), (Table.get?_eq_some_iff _ _ _).1 hlatest, ?_⟩
    exact List.mem_map.2 ⟨n, Graph.mem_dependents_iff.2 ⟨t, hknown, hmentions⟩, rfl⟩

/-- The commit of a variable waits for what mentions it and for its latest commit. -/
theorem mem_earlier_iff {n : String} :
    n ∈ l.earlier target ↔
      n ∈ l.linked.graph.dependents target ∨ l.latest.get? target = some n := by
  unfold earlier
  rw [List.mem_append, Option.mem_toList]

/-- What attaching a definition does to what has been linked. -/
structure Attached (l : Linker) (target : String) (part : Graph) (output commit : String)
    (l' : Linker) : Prop where
  names : l'.linked.graph.names = l.linked.graph.names ++ (part.names ++ [commit])
  old : ∀ n t, l.linked.graph.get? n = some t → l'.linked.graph.get? n = some t
  new : ∀ n t, part.get? n = some t → ∃ after,
    l'.linked.graph.get? n = some ⟨t.work, t.args, after⟩ ∧
      ∀ a, a ∈ after ↔ a ∈ t.after ∨ (n, a) ∈ l.readEdges part
  last : ∃ after, l'.linked.graph.get? commit = some ⟨.commit target, [.ref output], after⟩ ∧
    ∀ a, a ∈ after ↔ a ∈ l.earlier target
  commits : l'.linked.commits = l.linked.commits ++ [(target, commit)]
  latest : l'.latest = l.latest.insert target commit

theorem attach_ok (hattached : l.attach target part output = .ok l') :
    ∃ commit, l.Attached target part output commit l' := by
  unfold attach at hattached
  obtain ⟨merged, hmerge, hattached⟩ := bind_eq_ok_iff.1 hattached
  obtain ⟨ordered, hreads, hattached⟩ := bind_eq_ok_iff.1 hattached
  dsimp only at hattached
  generalize l.names.next ("commit-" ++ target) = drawn at hattached
  obtain ⟨commit, names⟩ := drawn
  obtain ⟨committed, hadd, hattached⟩ := bind_eq_ok_iff.1 hattached
  obtain ⟨graph, hwrites, hattached⟩ := bind_eq_ok_iff.1 hattached
  cases hattached
  obtain ⟨hnames₁, hfresh, hold₁, hnew₁⟩ := Graph.merge_ok hmerge
  obtain ⟨hnames₂, _, hkept₂, hgained₂⟩ := Graph.addEdges_ok hreads
  obtain ⟨hnames₃, hgets₃⟩ := Graph.tasks_add hadd
  obtain ⟨hnames₄, _, hkept₄, hgained₄⟩ := Graph.addEdges_ok hwrites
  have hnodup : committed.names.Nodup := committed.tasks.nodup
  rw [hnames₃, hnames₂, hnames₁] at hnodup
  have hapart := (List.nodup_append.1 hnodup).2.2
  -- Of the four steps only the last two touch the commit, and they touch nothing else.
  have hsame : ∀ n ∈ l.linked.graph.names ++ part.names, graph.get? n = ordered.get? n := by
    intro n hmem
    have hother : n ≠ commit := hapart n hmem commit List.mem_cons_self
    rw [hkept₄ n, hgets₃ n, if_neg hother]
    rw [List.forall_mem_map]
    exact fun _ _ => hother
  refine ⟨commit, ?_, ?_, ?_, ?_, rfl, rfl⟩
  · change graph.names = _
    rw [hnames₄, hnames₃, hnames₂, hnames₁, List.append_assoc]
  · intro n t hknown
    have hmem := Graph.mem_names_of_get? hknown
    refine (hsame n (List.mem_append_left _ hmem)).trans ((hkept₂ n ?_).trans (hold₁ n t hknown))
    rintro ⟨reader, c⟩ hedge rfl
    obtain ⟨_, t', _, hknown', _⟩ := mem_readEdges_iff.1 hedge
    exact hfresh _ (Graph.mem_names_of_get? hknown') hmem
  · intro n t hknown
    obtain ⟨after, hknown', hmembers⟩ := hgained₂ n t (hnew₁ n t hknown)
    have hmem := List.mem_append_right l.linked.graph.names (Graph.mem_names_of_get? hknown)
    exact ⟨after, (hsame n hmem).trans hknown', hmembers⟩
  · have hknown := hgets₃ commit
    rw [if_pos rfl] at hknown
    obtain ⟨after, hknown', hmembers⟩ := hgained₄ commit _ hknown
    refine ⟨after, hknown', fun a => (hmembers a).trans ?_⟩
    simp [Task.commit, Task.of]

namespace Attached

variable {registry : Registry} {e : Expr} {commit n x : String} {t : Task}

/-- A task of the definition waits for the latest commits of what it mentions, and for nothing
else that its arguments do not refer to. -/
theorem part_task (hattached : l.Attached target part output commit l') (hplain : t.Plain)
    (htask : part.get? n = some t) :
    ∃ after, l'.linked.graph.get? n = some ⟨t.work, t.args, after⟩ ∧
      ∀ a, a ∈ after ↔ ∃ x, l.latest.get? x = some a ∧ t.mentions x = true := by
  obtain ⟨after, hknown, hmembers⟩ := hattached.new n t htask
  refine ⟨after, hknown, fun a => (hmembers a).trans ?_⟩
  rw [hplain.unordered, mem_readEdges_iff, htask]
  simp

theorem commit_task (hattached : l.Attached target part output commit l') :
    ∃ after, l'.linked.graph.get? commit = some ⟨.commit target, [.ref output], after⟩ ∧
      ∀ a, a ∈ after ↔ a ∈ l.linked.graph.dependents target ∨ l.latest.get? target = some a := by
  obtain ⟨after, hknown, hmembers⟩ := hattached.last
  exact ⟨after, hknown, fun a => (hmembers a).trans mem_earlier_iff⟩

/-- The tasks of the definition come after tasks that were there. -/
theorem holds (hattached : l.Attached target part output commit l')
    (hemits : Emits registry [.expr e] [.ref output] part.tasks.entries)
    (hlatest : ∀ x k, l.latest.get? x = some k → k ∈ l.linked.graph.names) :
    l'.linked.graph.Holds l.linked.graph.names part.tasks.entries := by
  intro entry hmem
  have htask : part.get? entry.1 = some entry.2 := (Table.get?_eq_some_iff _ _ _).2 hmem
  obtain ⟨after, hknown, hmembers⟩ := hattached.part_task (hemits.plain entry hmem) htask
  refine ⟨after, hknown, fun a hwaits => ?_⟩
  obtain ⟨x, hcommitted, _⟩ := (hmembers a).1 hwaits
  exact hlatest x a hcommitted

/-- Tasks are added after everything they depend on. -/
theorem legal (hattached : l.Attached target part output commit l')
    (hemits : Emits registry [.expr e] [.ref output] part.tasks.entries)
    (hlatest : ∀ x k, l.latest.get? x = some k → k ∈ l.linked.graph.names)
    (hlegal : l.linked.graph.Legal l.linked.graph.names) :
    l'.linked.graph.Legal l'.linked.graph.names := by
  have hnodup : l'.linked.graph.names.Nodup := l'.linked.graph.tasks.nodup
  rw [hattached.names] at hnodup ⊢
  obtain ⟨_, hnodup, hapart⟩ := List.nodup_append.1 hnodup
  obtain ⟨hnodup, _, hlast⟩ := List.nodup_append.1 hnodup
  have hfresh : ∀ n ∈ part.names ++ [commit], n ∉ l.linked.graph.names :=
    fun n hmem hold => hapart n hold n hmem rfl
  have htasks := hemits.legalAfter (hattached.holds hemits hlatest) hnodup
    (fun n hmem => hfresh n (List.mem_append_left _ hmem)) fun _ hold => hold
  have hfinal : l'.linked.graph.LegalAfter (l.linked.graph.names ++ part.names) [commit] := by
    obtain ⟨after, hknown, hmembers⟩ := hattached.commit_task
    refine ⟨?_, ⟨_, hknown, fun d hneed => ?_⟩, trivial⟩
    · intro hreported
      rcases List.mem_append.1 hreported with hold | hown
      · exact hfresh commit (List.mem_append_right _ List.mem_cons_self) hold
      · exact hlast commit hown commit List.mem_cons_self rfl
    · rcases Task.mem_dependencies_iff.1 hneed with href | hwaits
      · exact List.mem_append_right _ (hemits.arguments.1 d href)
      · refine List.mem_append_left _ ?_
        rcases (hmembers d).1 hwaits with hreader | hcommitted
        · obtain ⟨t, htask, _⟩ := Graph.mem_dependents_iff.1 hreader
          exact Graph.mem_names_of_get? htask
        · exact hlatest target d hcommitted
  refine Graph.legal_append.2 ⟨Graph.Extends.legal hattached.old hlegal, ?_⟩
  exact Graph.legalAfter_append.2 ⟨htasks, hfinal⟩

end Attached

/-- A definition is linked once its edges can be added. -/
theorem exists_define {registry : Registry} {text : String} {e : Expr}
    {merged ordered committed : Graph} {names : NameSupply}
    (hparsed : Expr.parse text = .ok e)
    (hbuilt : e.buildWith l.names registry = (.ok (part, output), names))
    (hmerge : l.linked.graph.merge part = .ok merged)
    (hreads : addEdges merged (l.readEdges part) = .ok ordered)
    (hcommit : ordered.add (names.next ("commit-" ++ target)).1 (.commit target output) =
      .ok committed)
    (hwrites : ∃ graph, addEdges committed
      ((l.earlier target).map fun task => ((names.next ("commit-" ++ target)).1, task)) =
        .ok graph) :
    ∃ l', l.define registry (target, text) = .ok l' := by
  obtain ⟨graph, hwrites⟩ := hwrites
  obtain ⟨l', hattached⟩ :
      ∃ l', ({ l with names } : Linker).attach target part output = .ok l' := by
    unfold attach
    exact ⟨_, bind_eq_ok_iff.2 ⟨merged, hmerge, bind_eq_ok_iff.2 ⟨ordered, hreads,
      bind_eq_ok_iff.2 ⟨committed, hcommit, bind_eq_ok_iff.2 ⟨graph, hwrites, rfl⟩⟩⟩⟩⟩
  refine ⟨l', bind_eq_ok_iff.2 ⟨e, mapError_eq_ok_iff.2 hparsed, ?_⟩⟩
  rw [hbuilt]
  exact bind_eq_ok_iff.2 ⟨(part, output), rfl, mapError_eq_ok_iff.2 hattached⟩

end Linker

end ColumnFlow
