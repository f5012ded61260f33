import ColumnFlow.Proofs.Linking.Attachment

/-!
# The order that linking keeps

Three kinds of edges keep conflicting tasks in definition order: a reader of a variable comes
after its latest commit, a commit comes after every earlier reader of its variable, and after
the commit before it. The latest commit of a variable is the last one in insertion order, and
depends on all others, so that these edges order every pair of conflicting tasks.
-/

namespace ColumnFlow.Linker

/-- What holds of the linked graph after any number of definitions. -/
structure Tidy (l : Linker) : Prop where
  confluent : l.linked.graph.Confluent .onePass
  latest : ∀ x, l.latest.get? x = l.linked.graph.lastCommit x l.linked.graph.names
  known : ∀ c ∈ l.linked.commitTasks, c ∈ l.linked.graph.names
  leads : ∀ n ∈ l.linked.graph.names, n ∈ l.linked.commitTasks ∨
    ∃ c ∈ l.linked.commitTasks, l.linked.graph.Before n c

theorem tidy_start : start.Tidy := by
  refine ⟨⟨trivial, ?_, ?_⟩, fun _ => rfl, ?_, ?_⟩
  · intro k n x hcommits
    cases hcommits
  · intro n t hknown
    cases hknown
  · intro c hmem
    cases hmem
  · intro n hmem
    cases hmem

variable {registry : Registry} {l l' : Linker} {e : Expr} {part : Graph}
variable {target output commit : String} {k n x : String}

/-- The latest commit of a variable is one, and depends on all others. -/
theorem Tidy.latest_spec (htidy : l.Tidy) (hlatest : l.latest.get? x = some k) :
    k ∈ l.linked.graph.names ∧ l.linked.graph.committed? k = some x ∧
      ∀ j ∈ l.linked.graph.names, l.linked.graph.committed? j = some x → j ≠ k →
        l.linked.graph.Before j k :=
  Graph.lastCommit_spec htidy.confluent.ordered htidy.confluent.legal (htidy.latest x ▸ hlatest)

/-- A committed variable has a latest commit. -/
theorem Tidy.exists_latest (htidy : l.Tidy) (hmem : n ∈ l.linked.graph.names)
    (hcommits : l.linked.graph.committed? n = some x) :
    ∃ k, l.latest.get? x = some k ∧ (n = k ∨ l.linked.graph.Before n k) := by
  cases hlatest : l.latest.get? x with
  | none =>
    rw [htidy.latest] at hlatest
    exact absurd hcommits (Graph.lastCommit_eq_none_iff.1 hlatest n hmem)
  | some k =>
    refine ⟨k, rfl, Decidable.or_iff_not_imp_left.2 fun hother => ?_⟩
    exact (htidy.latest_spec hlatest).2.2 n hmem hcommits hother

/-! ## One more definition -/

/-- A compiled definition is attached to what has been linked. -/
structure Step (registry : Registry) (l : Linker) (target : String) (e : Expr) (part : Graph)
    (output commit : String) (l' : Linker) : Prop where
  tidy : l.Tidy
  written : e.Written
  emits : Emits registry [.expr e] [.ref output] part.tasks.entries
  attached : l.Attached target part output commit l'

namespace Step

variable (hstep : Step registry l target e part output commit l')

include hstep

theorem grows : l.linked.graph.Extends l'.linked.graph := hstep.attached.old

theorem mem_names_iff : n ∈ l'.linked.graph.names ↔
    n ∈ l.linked.graph.names ∨ n ∈ part.names ∨ n = commit := by
  rw [hstep.attached.names, List.mem_append, List.mem_append, List.mem_singleton]

/-- A task of the definition waits for the latest commits of what it mentions, and for nothing
else that its arguments do not refer to. -/
theorem part_task (hmem : n ∈ part.names) : ∃ t after, part.get? n = some t ∧ Emitted t ∧
    l'.linked.graph.get? n = some ⟨t.work, t.args, after⟩ ∧
      ∀ a, a ∈ after ↔ ∃ x, l.latest.get? x = some a ∧ t.mentions x = true := by
  obtain ⟨t, htask⟩ := Graph.mem_names_iff.1 hmem
  have hentry := (Table.get?_eq_some_iff _ _ _).1 htask
  have hemitted := hstep.emits.emitted (List.forall_mem_singleton.2 hstep.written) _ hentry
  obtain ⟨after, hknown, hmembers⟩ := hstep.attached.part_task (hstep.emits.plain _ hentry) htask
  exact ⟨t, after, htask, hemitted, hknown, hmembers⟩

theorem holds : l'.linked.graph.Holds l.linked.graph.names part.tasks.entries :=
  hstep.attached.holds hstep.emits fun _ _ hlatest => (hstep.tidy.latest_spec hlatest).1

theorem committed?_part (hmem : n ∈ part.names) : l'.linked.graph.committed? n = none := by
  obtain ⟨t, after, _, hemitted, hknown, _⟩ := hstep.part_task hmem
  rw [Graph.committed?, hknown]
  exact hemitted.committed?

theorem committed?_commit : l'.linked.graph.committed? commit = some target := by
  obtain ⟨after, hknown, _⟩ := hstep.attached.commit_task
  rw [Graph.committed?, hknown]
  rfl

theorem columnsOf_commit : l'.linked.graph.columnsOf commit = [] := by
  obtain ⟨after, hknown, _⟩ := hstep.attached.commit_task
  rw [Graph.columnsOf, hknown]
  rfl

/-! ### The edges -/

/-- A reader comes after the latest commit. -/
theorem latest_before_reader (hmem : n ∈ part.names) (hreads : x ∈ l'.linked.graph.columnsOf n)
    (hlatest : l.latest.get? x = some k) : l'.linked.graph.Before k n := by
  obtain ⟨t, after, _, _, hknown, hmembers⟩ := hstep.part_task hmem
  rw [Graph.columnsOf, hknown] at hreads
  have hmentions : t.mentions x = true := by
    have hcolumn : x ∈ t.columns := hreads
    simp [Task.mentions, hcolumn]
  refine .direct ?_
  rw [Graph.dependenciesOf_eq hknown]
  exact Task.mem_dependencies_iff.2 (.inr ((hmembers k).2 ⟨x, hlatest, hmentions⟩))

/-- A commit comes after the tasks of its definition. -/
theorem part_before_commit (hmem : n ∈ part.names) : l'.linked.graph.Before n commit := by
  obtain ⟨after, hknown, _⟩ := hstep.attached.commit_task
  have hedge : output ∈ l'.linked.graph.dependenciesOf commit := by
    rw [Graph.dependenciesOf_eq hknown]
    exact Task.refs_subset_dependencies List.mem_cons_self
  rcases hstep.emits.leads hstep.holds n hmem with hsame | ⟨r, hsame, hbefore⟩
  · cases List.mem_singleton.1 hsame
    exact .direct hedge
  · cases List.mem_singleton.1 hsame
    exact .through hbefore hedge

/-- A commit comes after earlier readers and commits of its variable. -/
theorem earlier_before_commit (hmem : n ∈ l.linked.graph.names)
    (hconflict : l.linked.graph.committed? n = some target ∨
      target ∈ l.linked.graph.columnsOf n) : l'.linked.graph.Before n commit := by
  obtain ⟨after, hknown, hmembers⟩ := hstep.attached.commit_task
  have hedge {a : String} (hwaits : a ∈ l.linked.graph.dependents target ∨
      l.latest.get? target = some a) : a ∈ l'.linked.graph.dependenciesOf commit := by
    rw [Graph.dependenciesOf_eq hknown]
    exact Task.mem_dependencies_iff.2 (.inr ((hmembers a).2 hwaits))
  rcases hconflict with hcommits | hreads
  · obtain ⟨k, hlatest, horder⟩ := hstep.tidy.exists_latest hmem hcommits
    rcases horder with rfl | hbefore
    · exact .direct (hedge (.inr hlatest))
    · exact .through (hstep.grows.before hbefore) (hedge (.inr hlatest))
  · obtain ⟨t, htask⟩ := Graph.mem_names_iff.1 hmem
    rw [Graph.columnsOf, htask] at hreads
    have hmentions : t.mentions target = true := by
      have hcolumn : target ∈ t.columns := hreads
      simp [Task.mentions, hcolumn]
    exact .direct (hedge (.inl (Graph.mem_dependents_iff.2 ⟨t, htask, hmentions⟩)))

/-! ### The invariant -/

/-- A task that binds a variable and one that binds or reads it are ordered by an edge. -/
theorem ordered : l'.linked.graph.Ordered := by
  intro k n x hcommits hconflict hother
  have hknown {m : String} (hmem : m ∈ l.linked.graph.names) :
      l'.linked.graph.committed? m = l.linked.graph.committed? m ∧
        l'.linked.graph.columnsOf m = l.linked.graph.columnsOf m :=
    ⟨hstep.grows.committed?_eq hmem, hstep.grows.columnsOf_eq hmem⟩
  -- A name that commits or reads a variable is a task.
  have hinside {m : String} (hnonempty : l'.linked.graph.committed? m = some x ∨
      x ∈ l'.linked.graph.columnsOf m) : m ∈ l'.linked.graph.names := by
    rw [Graph.mem_names_iff]
    cases htask : l'.linked.graph.get? m with
    | some t => exact ⟨t, rfl⟩
    | none =>
      rw [Graph.committed?, Graph.columnsOf, htask] at hnonempty
      rcases hnonempty with hnone | hnone <;> cases hnone
  -- the first is an earlier commit or the new one, the second any task
  rcases hstep.mem_names_iff.1 (hinside (.inl hcommits)) with holdK | hpartK | rfl
  · rcases hstep.mem_names_iff.1 (hinside hconflict) with holdN | hpartN | rfl
    · rw [(hknown holdK).1] at hcommits
      rw [(hknown holdN).1, (hknown holdN).2] at hconflict
      exact (hstep.tidy.confluent.ordered hcommits hconflict hother).imp hstep.grows.before
        hstep.grows.before
    · refine .inl ?_
      rw [hstep.committed?_part hpartN] at hconflict
      rw [(hknown holdK).1] at hcommits
      rcases hconflict with ⟨⟨⟩⟩ | hreads
      obtain ⟨c, hlatest, horder⟩ := hstep.tidy.exists_latest holdK hcommits
      have hread := hstep.latest_before_reader hpartN hreads hlatest
      rcases horder with rfl | hbefore
      · exact hread
      · exact (hstep.grows.before hbefore).trans hread
    · rw [hstep.committed?_commit, hstep.columnsOf_commit] at hconflict
      rcases hconflict with ⟨⟨⟩⟩ | ⟨⟨⟩⟩
      rw [(hknown holdK).1] at hcommits
      exact .inl (hstep.earlier_before_commit holdK (.inl hcommits))
  · rw [hstep.committed?_part hpartK] at hcommits
    cases hcommits
  · rw [hstep.committed?_commit] at hcommits
    cases hcommits
    refine .inr ?_
    rcases hstep.mem_names_iff.1 (hinside hconflict) with holdN | hpartN | rfl
    · rw [(hknown holdN).1, (hknown holdN).2] at hconflict
      exact hstep.earlier_before_commit holdN hconflict
    · exact hstep.part_before_commit hpartN
    · exact absurd rfl hother

theorem legal : l'.linked.graph.Legal l'.linked.graph.names :=
  hstep.attached.legal hstep.emits (fun _ _ hlatest => (hstep.tidy.latest_spec hlatest).1)
    hstep.tidy.confluent.legal

theorem confluent : l'.linked.graph.Confluent .onePass := by
  refine ⟨hstep.legal, hstep.ordered, ?_⟩
  intro n t htask
  rcases hstep.mem_names_iff.1 (Graph.mem_names_of_get? htask) with hold | hmem | rfl
  · rw [hstep.grows.get?_eq hold] at htask
    exact hstep.tidy.confluent.framed n t htask
  · obtain ⟨t', after, _, hemitted, hknown, _⟩ := hstep.part_task hmem
    cases hknown.symm.trans htask
    exact hemitted.framed
  · obtain ⟨after, hknown, _⟩ := hstep.attached.commit_task
    cases hknown.symm.trans htask
    exact Task.framed_of_noText fun _ htext => by cases htext

theorem latest : l'.latest.get? x = l'.linked.graph.lastCommit x l'.linked.graph.names := by
  have hnone : ∀ n ∈ part.names, l'.linked.graph.committed? n ≠ some x := by
    intro n hmem
    rw [hstep.committed?_part hmem]
    exact nofun
  rw [hstep.attached.latest, Table.get?_insert, hstep.attached.names, ← List.append_assoc,
    Graph.lastCommit_snoc, hstep.committed?_commit, Graph.lastCommit_append hnone,
    hstep.grows.lastCommit_eq fun n hmem => hmem, hstep.tidy.latest]
  by_cases hsame : x = target
  · rw [if_pos hsame, if_pos (congrArg some hsame.symm)]
  · rw [if_neg hsame, if_neg fun heq => hsame (Option.some.inj heq).symm]

theorem commitTasks_eq : l'.linked.commitTasks = l.linked.commitTasks ++ [commit] := by
  rw [Linked.commitTasks, hstep.attached.commits, List.map_append]
  rfl

/-- Linking keeps its invariant. -/
theorem tidy' : l'.Tidy := by
  have hlast : commit ∈ l'.linked.commitTasks := by
    rw [hstep.commitTasks_eq]
    exact List.mem_append_right _ List.mem_cons_self
  have hearlier {c : String} (hmem : c ∈ l.linked.commitTasks) : c ∈ l'.linked.commitTasks := by
    rw [hstep.commitTasks_eq]
    exact List.mem_append_left _ hmem
  refine ⟨hstep.confluent, fun x => hstep.latest, ?_, ?_⟩
  · rw [hstep.commitTasks_eq]
    refine List.forall_mem_append.2 ⟨fun c hmem => ?_, List.forall_mem_singleton.2 ?_⟩
    · exact hstep.mem_names_iff.2 (.inl (hstep.tidy.known c hmem))
    · exact hstep.mem_names_iff.2 (.inr (.inr rfl))
  · intro n hmem
    rcases hstep.mem_names_iff.1 hmem with hold | hown | rfl
    · refine (hstep.tidy.leads n hold).imp hearlier ?_
      rintro ⟨c, hmem, hbefore⟩
      exact ⟨c, hearlier hmem, hstep.grows.before hbefore⟩
    · exact .inr ⟨commit, hlast, hstep.part_before_commit hown⟩
    · exact .inl hlast

end Step

end ColumnFlow.Linker
