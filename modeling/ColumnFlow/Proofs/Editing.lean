import ColumnFlow.Proofs.Execution.Orders

/-!
# Changing graphs

A graph grows by single tasks and by the tasks of other graphs, and its tasks are ordered after one
another. Each change looks for a reason to refuse before it writes anything, so that a refused
change leaves no trace. In a graph that was built by such changes no task depends on itself, and
the first and the last name are those of the insertion order. Merging is adding task by task.
-/

namespace ColumnFlow.Graph

/-! ## Changes in place -/

/-- A step that changes a graph in place. What it has written stays when a later step fails. -/
abbrev Editing (α : Type) : Type := ExceptT GraphError (StateM Graph) α

/-- What a change reports and the graph that it leaves, if it is made as a whole or not at all. -/
def atomically (g : Graph) : Except GraphError Graph → Except GraphError Unit × Graph
  | .ok g' => (.ok (), g')
  | .error e => (.error e, g)

namespace Editing

/-- Add a task, one field of the graph after the other. -/
def add (name : String) (t : Task) : Editing Unit := do
  if (← get).contains name then throw (.duplicateTask name)
  if name ∈ t.dependencies then throw (.selfReference name)
  modify fun g => { g with first? := g.first?.or (some name) }
  modify fun g => { g with last? := some name }
  modify fun g => { g with tasks := g.tasks.insert name t }

/-- Add the tasks of another graph, one after the other once all names are known to be free. -/
def merge (other : Graph) : Editing Unit := do
  match other.names.find? (← get).contains with
  | some name => throw (.duplicateTask name)
  | none => pure ()
  modify fun g => { g with first? := g.first?.or other.first? }
  modify fun g => { g with last? := other.last?.or g.last? }
  other.tasks.entries.forM fun e => modify fun g => { g with tasks := g.tasks.insert e.1 e.2 }

/-- Order a task after another. -/
def appendDependency (task extra : String) : Editing Unit := do
  if !(← get).contains task then throw (.unknownTask task)
  if !(← get).contains extra then throw (.unknownTask extra)
  if task = extra ∨ (← get).dependsOn extra task then throw (.cycle task extra)
  modify fun g => { g with
    tasks := g.tasks.modify task fun t =>
      if extra ∈ t.after then t else { t with after := t.after ++ [extra] } }

variable {α : Type} {g : Graph}

theorem read_bind (k : Graph → Editing α) : (get >>= k : Editing α) g = k g g := rfl

theorem add_eq (g : Graph) (name : String) (t : Task) :
    add name t g = g.atomically (g.add name t) := by
  unfold add Graph.add
  rw [read_bind]
  split
  · rfl
  · dsimp only
    split
    · rfl
    · rfl

theorem forM_insert_eq (g : Graph) (entries : List (String × Task)) :
    (entries.forM fun e => modify fun g => { g with tasks := g.tasks.insert e.1 e.2 } :
      Editing Unit) g = (.ok (), { g with tasks := g.tasks.insertAll entries }) := by
  induction entries generalizing g with
  | nil => rfl
  | cons e es ih => exact ih { g with tasks := g.tasks.insert e.1 e.2 }

/-- Merging in place changes a graph as a whole or not at all. -/
theorem merge_eq (g other : Graph) : merge other g = g.atomically (g.merge other) := by
  unfold merge Graph.merge
  rw [read_bind]
  cases other.names.find? g.contains with
  | some name => rfl
  | none => exact forM_insert_eq _ _

/-- Ordering two tasks in place changes a graph as a whole or not at all. -/
theorem appendDependency_eq (g : Graph) (task extra : String) :
    appendDependency task extra g = g.atomically (g.appendDependency task extra) := by
  unfold appendDependency Graph.appendDependency
  rw [read_bind]
  split
  · rfl
  · dsimp only
    rw [read_bind]
    split
    · rfl
    · rw [read_bind]
      split
      · rfl
      · rfl

end Editing

/-- A change of a graph. -/
inductive Edit where
  | add (name : String) (t : Task)
  | merge (other : Graph)
  | appendDependency (task extra : String)

/-- Make a change in place. -/
def Edit.make : Edit → Editing Unit
  | .add name t => Editing.add name t
  | .merge other => Editing.merge other
  | .appendDependency task extra => Editing.appendDependency task extra

/-- The graph that a change leads to, or the reason for which it is refused. -/
def Edit.outcome (g : Graph) : Edit → Except GraphError Graph
  | .add name t => g.add name t
  | .merge other => g.merge other
  | .appendDependency task extra => g.appendDependency task extra

/-- A change is made as a whole or not at all. -/
theorem Edit.make_eq (g : Graph) (edit : Edit) : edit.make g = g.atomically (edit.outcome g) := by
  cases edit with
  | add name t => exact Editing.add_eq g name t
  | merge other => exact Editing.merge_eq g other
  | appendDependency task extra => exact Editing.appendDependency_eq g task extra

/-- A change that is not refused leaves the graph that it leads to. -/
theorem Edit.make_of_outcome {g g' : Graph} {edit : Edit} (hmade : edit.outcome g = .ok g') :
    (edit.make g).2 = g' := by
  rw [make_eq, hmade]
  rfl

/-! ## What changes do -/

variable {g g' other : Graph}

/-- A task is added exactly if its name is free and it does not depend on itself. -/
theorem add_eq_ok_iff {name : String} {t : Task} : g.add name t = .ok g' ↔
    name ∉ g.names ∧ name ∉ t.dependencies ∧
      g' = ⟨g.tasks.insert name t, g.first?.or (some name), some name⟩ := by
  unfold add
  by_cases htaken : g.contains name = true
  · simp [htaken, contains_iff.1 htaken]
  · have hfresh : name ∉ g.names := fun hmem => htaken (contains_iff.2 hmem)
    by_cases hitself : name ∈ t.dependencies
    · simp [htaken, hitself]
    · simp [htaken, hitself, hfresh, eq_comm]

/-- Two graphs are the same if they have the same tasks in the same order and agree on the first
and the last. -/
theorem ext (hentries : g.tasks.entries = g'.tasks.entries) (hfirst : g.first? = g'.first?)
    (hlast : g.last? = g'.last?) : g = g' := by
  obtain ⟨⟨es, hnodup⟩, first?, last?⟩ := g
  obtain ⟨⟨es', hnodup'⟩, first?', last?'⟩ := g'
  cases (hentries : es = es')
  cases (hfirst : first? = first?')
  cases (hlast : last? = last?')
  rfl

/-- Two graphs without common names are merged, one after the other. -/
theorem merge_eq_ok_iff : g.merge other = .ok g' ↔
    (∀ n ∈ other.names, n ∉ g.names) ∧
      g'.tasks.entries = g.tasks.entries ++ other.tasks.entries ∧
      g'.first? = g.first?.or other.first? ∧ g'.last? = other.last?.or g.last? := by
  unfold merge
  cases hfound : other.names.find? g.contains with
  | some name =>
    have htaken : name ∈ g.names := contains_iff.1 (List.find?_some hfound)
    refine iff_of_false nofun ?_
    rintro ⟨hfresh, -⟩
    exact hfresh name (List.mem_of_find?_eq_some hfound) htaken
  | none =>
    have hfresh : ∀ n ∈ other.names, n ∉ g.names :=
      fun n hmem htaken => List.find?_eq_none.1 hfound n hmem (contains_iff.2 htaken)
    have hentries := Table.entries_insertAll other.tasks.nodup hfresh
    constructor
    · intro hmerged
      cases hmerged
      exact ⟨hfresh, hentries, rfl, rfl⟩
    · rintro ⟨-, hentries', hfirst, hlast⟩
      exact congrArg Except.ok (ext (hentries.trans hentries'.symm) hfirst.symm hlast.symm)

theorem names_of_merge (hmerged : g.merge other = .ok g') : g'.names = g.names ++ other.names := by
  obtain ⟨-, hentries, -⟩ := merge_eq_ok_iff.1 hmerged
  simp only [names, Table.keys, hentries, List.map_append]

/-- Graphs without a common name can be merged. -/
theorem exists_merge (hfresh : ∀ n ∈ other.names, n ∉ g.names) : ∃ g', g.merge other = .ok g' := by
  unfold merge
  rw [List.find?_eq_none.2 fun n hmem htaken => hfresh n hmem (contains_iff.1 htaken)]
  exact ⟨_, rfl⟩

/-- The tasks of both graphs are kept. -/
theorem get?_of_merge (hmerged : g.merge other = .ok g') (n : String) (t : Task) :
    g'.get? n = some t ↔ g.get? n = some t ∨ other.get? n = some t := by
  obtain ⟨-, hentries, -⟩ := merge_eq_ok_iff.1 hmerged
  simp only [get?, Table.get?_eq_some_iff, hentries, List.mem_append]

/-- The task comes after the other one as well, and nothing else is changed. -/
structure Reordered (g : Graph) (task extra : String) (g' : Graph) : Prop where
  names : g'.names = g.names
  first : g'.first? = g.first?
  last : g'.last? = g.last?
  others : ∀ n, n ≠ task → g'.get? n = g.get? n
  own : ∀ t, g.get? task = some t → g'.get? task =
    some { t with after := if extra ∈ t.after then t.after else t.after ++ [extra] }

theorem mem_after_iff {after : List String} {extra a : String} :
    a ∈ (if extra ∈ after then after else after ++ [extra]) ↔ a ∈ after ∨ a = extra := by
  by_cases hold : extra ∈ after
  · rw [if_pos hold]
    refine (or_iff_left_of_imp ?_).symm
    rintro rfl
    exact hold
  · simp [if_neg hold]

/-- Ordering two tasks adds one dependency and leaves all others. -/
theorem Reordered.mem_dependenciesOf_iff {task extra n d : String} (h : g.Reordered task extra g')
    (hknown : task ∈ g.names) :
    d ∈ g'.dependenciesOf n ↔ d ∈ g.dependenciesOf n ∨ (n = task ∧ d = extra) := by
  by_cases hsame : n = task
  · subst hsame
    obtain ⟨t, hget⟩ := mem_names_iff.1 hknown
    rw [dependenciesOf_eq hget, dependenciesOf_eq (h.own t hget), Task.mem_dependencies_iff,
      Task.mem_dependencies_iff, mem_after_iff, or_assoc, and_iff_right rfl]
    rfl
  · rw [dependenciesOf, h.others n hsame, ← dependenciesOf]
    simp [hsame]

/-- When a task is ordered after another, and what is reported otherwise. -/
theorem appendDependency_outcome (g : Graph) (task extra : String) :
    (task ∉ g.names ∧ g.appendDependency task extra = .error (.unknownTask task)) ∨
    (task ∈ g.names ∧ extra ∉ g.names ∧
      g.appendDependency task extra = .error (.unknownTask extra)) ∨
    (task ∈ g.names ∧ extra ∈ g.names ∧ (task = extra ∨ g.dependsOn extra task = true) ∧
      g.appendDependency task extra = .error (.cycle task extra)) ∨
    (task ∈ g.names ∧ extra ∈ g.names ∧ ¬ (task = extra ∨ g.dependsOn extra task = true) ∧
      ∃ g', g.appendDependency task extra = .ok g' ∧ g.Reordered task extra g') := by
  unfold appendDependency
  by_cases hknown : task ∈ g.names
  · by_cases hknown' : extra ∈ g.names
    · simp only [contains_iff.2 hknown, contains_iff.2 hknown', Bool.not_true, Bool.false_eq_true,
        if_false]
      by_cases hcloses : task = extra ∨ g.dependsOn extra task = true
      · exact .inr (.inr (.inl ⟨hknown, hknown', hcloses, if_pos hcloses⟩))
      · refine .inr (.inr (.inr ⟨hknown, hknown', hcloses, _, if_neg hcloses, ?_⟩))
        refine ⟨Table.keys_modify _ _ _, rfl, rfl, ?_, ?_⟩
        · intro n hother
          exact (Table.get?_modify _ _ _ _).trans (if_neg hother)
        · intro t hget
          refine ((Table.get?_modify _ _ _ _).trans (if_pos rfl)).trans ?_
          rw [show g.tasks.get? task = some t from hget, Option.map_some]
          split
          · rfl
          · rfl
    · have hmissing : g.contains extra = false := by simpa [← contains_iff] using hknown'
      refine .inr (.inl ⟨hknown, hknown', ?_⟩)
      simp [contains_iff.2 hknown, hmissing]
  · have hmissing : g.contains task = false := by simpa [← contains_iff] using hknown
    exact .inl ⟨hknown, by simp [hmissing]⟩

/-- Ordering succeeds only for two known tasks that do not depend the other way round. -/
theorem reordered_of_appendDependency {task extra : String}
    (happended : g.appendDependency task extra = .ok g') :
    task ∈ g.names ∧ extra ∈ g.names ∧ ¬ (task = extra ∨ g.dependsOn extra task = true) ∧
      g.Reordered task extra g' := by
  rcases g.appendDependency_outcome task extra with ⟨-, hrefused⟩ | ⟨-, -, hrefused⟩ |
    ⟨-, -, -, hrefused⟩ | ⟨hknown, hknown', hapart, g'', haccepted, hreordered⟩
  · cases hrefused.symm.trans happended
  · cases hrefused.symm.trans happended
  · cases hrefused.symm.trans happended
  · cases haccepted.symm.trans happended
    exact ⟨hknown, hknown', hapart, hreordered⟩

/-! ## Graphs that were built -/

/-- The first and the last name are those of the insertion order, in which no name stands twice, and
no task waits for itself. -/
structure Coherent (g : Graph) : Prop where
  nodup : g.names.Nodup
  first : g.first? = g.names.head?
  last : g.last? = g.names.getLast?
  loopless : ∀ n, n ∉ g.dependenciesOf n

/-- A graph that any number of changes, made or refused, leave of the empty one. What is merged was
built in the same way. -/
inductive Built : Graph → Prop where
  | empty : Built .empty
  | edit {g : Graph} (edit : Edit) :
      Built g → (∀ other, edit = .merge other → Built other) → Built (edit.make g).2

theorem coherent_empty : empty.Coherent := ⟨List.nodup_nil, rfl, rfl, fun _ => List.not_mem_nil⟩

/-- Adding a task keeps a graph coherent. -/
theorem Coherent.add {name : String} {t : Task} (hcoherent : g.Coherent)
    (hadded : g.add name t = .ok g') : g'.Coherent := by
  obtain ⟨hnames, hgets⟩ := tasks_add hadded
  obtain ⟨-, hother, rfl⟩ := add_eq_ok_iff.1 hadded
  refine ⟨Table.nodup _, ?_, ?_, fun n hedge => ?_⟩
  · rw [hnames, List.head?_append, ← hcoherent.first]
    rfl
  · rw [hnames, List.getLast?_concat]
  · obtain ⟨t', hget, hneed⟩ := mem_dependenciesOf_iff.1 hedge
    rw [hgets] at hget
    split at hget
    · next hsame =>
      cases hget
      exact hother (hsame ▸ hneed)
    · exact hcoherent.loopless n (mem_dependenciesOf_iff.2 ⟨t', hget, hneed⟩)

/-- Merging coherent graphs gives a coherent one. -/
theorem Coherent.merge (hcoherent : g.Coherent) (hcoherent' : other.Coherent)
    (hmerged : g.merge other = .ok g') : g'.Coherent := by
  obtain ⟨-, -, hfirst, hlast⟩ := merge_eq_ok_iff.1 hmerged
  have hnames := names_of_merge hmerged
  refine ⟨Table.nodup _, ?_, ?_, fun n hedge => ?_⟩
  · rw [hfirst, hnames, List.head?_append, hcoherent.first, hcoherent'.first]
  · rw [hlast, hnames, List.getLast?_append, hcoherent.last, hcoherent'.last]
  · obtain ⟨t, hget, hneed⟩ := mem_dependenciesOf_iff.1 hedge
    rcases (get?_of_merge hmerged n t).1 hget with hown | hown
    · exact hcoherent.loopless n (mem_dependenciesOf_iff.2 ⟨t, hown, hneed⟩)
    · exact hcoherent'.loopless n (mem_dependenciesOf_iff.2 ⟨t, hown, hneed⟩)

theorem Coherent.appendDependency {task extra : String} (hcoherent : g.Coherent)
    (happended : g.appendDependency task extra = .ok g') : g'.Coherent := by
  obtain ⟨hknown, -, hapart, hreordered⟩ := reordered_of_appendDependency happended
  refine ⟨Table.nodup _, ?_, ?_, fun n hedge => ?_⟩
  · rw [hreordered.first, hreordered.names, hcoherent.first]
  · rw [hreordered.last, hreordered.names, hcoherent.last]
  · rcases (hreordered.mem_dependenciesOf_iff hknown).1 hedge with hold | ⟨rfl, hsame⟩
    · exact hcoherent.loopless n hold
    · exact hapart (.inl hsame)

/-- Changes keep a graph coherent, also if they are refused. -/
theorem Coherent.make {edit : Edit} (hcoherent : g.Coherent)
    (hmerged : ∀ other, edit = .merge other → other.Coherent) : (edit.make g).2.Coherent := by
  rw [edit.make_eq]
  cases houtcome : edit.outcome g with
  | error e => exact hcoherent
  | ok g' =>
    cases edit with
    | add name t => exact hcoherent.add houtcome
    | merge other => exact hcoherent.merge (hmerged other rfl) houtcome
    | appendDependency task extra => exact hcoherent.appendDependency houtcome

/-- A graph that was built is coherent. -/
theorem Built.coherent (hbuilt : g.Built) : g.Coherent := by
  induction hbuilt with
  | empty => exact coherent_empty
  | edit edit _ _ ih ih' => exact ih.make ih'

/-! ## Merging -/

/-- Adding tasks one by one, under different names, fails on the first name that is taken. -/
theorem foldlM_add_eq {entries : List (String × Task)} (hnodup : (entries.map Prod.fst).Nodup)
    (hloopless : ∀ e ∈ entries, e.1 ∉ e.2.dependencies) (g : Graph) :
    entries.foldlM (fun g e => g.add e.1 e.2) g =
      match (entries.map Prod.fst).find? g.contains with
      | some name => .error (.duplicateTask name)
      | none => .ok ⟨g.tasks.insertAll entries, g.first?.or (entries.map Prod.fst).head?,
          (entries.map Prod.fst).getLast?.or g.last?⟩ := by
  induction entries generalizing g with
  | nil => exact congrArg Except.ok (ext rfl (Option.or_none).symm rfl)
  | cons e es ih =>
    rw [List.map_cons, List.nodup_cons] at hnodup
    rw [List.forall_mem_cons] at hloopless
    rw [List.foldlM_cons, List.map_cons, List.find?_cons]
    cases htaken : g.contains e.1 with
    | true =>
      rw [Graph.add, if_pos htaken]
      rfl
    | false =>
      have hfresh : e.1 ∉ g.names := fun hmem => by simp [contains_iff.2 hmem] at htaken
      rw [add_eq_ok_iff.2 ⟨hfresh, hloopless.1, rfl⟩, ok_bind, ih hnodup.2 hloopless.2]
      -- Adding this task takes none of the names that are still to come.
      have hapart : ∀ n ∈ es.map Prod.fst, contains ⟨g.tasks.insert e.1 e.2,
          g.first?.or (some e.1), some e.1⟩ n = g.contains n := by
        intro n hmem
        have hother : n ≠ e.1 := fun hsame => hnodup.1 (hsame ▸ hmem)
        exact (Table.contains_insert _ _ _ _).trans (by simp [hother, contains])
      rw [List.find?_congr hapart]
      cases (es.map Prod.fst).find? g.contains with
      | some name => rfl
      | none =>
        refine congrArg Except.ok (ext rfl ?_ ?_)
        · simp
        · simp [List.getLast?_cons]

/-- Merging is adding the tasks of the other graph one by one. -/
theorem merge_eq_foldlM_add (hcoherent : other.Coherent) (g : Graph) :
    g.merge other = other.tasks.entries.foldlM (fun g e => g.add e.1 e.2) g := by
  have hloopless : ∀ e ∈ other.tasks.entries, e.1 ∉ e.2.dependencies := by
    intro e hmem hneed
    have hget : other.get? e.1 = some e.2 := (Table.get?_eq_some_iff _ _ _).2 hmem
    exact hcoherent.loopless e.1 (mem_dependenciesOf_iff.2 ⟨e.2, hget, hneed⟩)
  rw [foldlM_add_eq other.tasks.nodup hloopless, merge, hcoherent.first, hcoherent.last]
  rfl

theorem merge_empty (g : Graph) : g.merge .empty = .ok g :=
  merge_eq_ok_iff.2 ⟨List.forall_mem_nil _, (List.append_nil _).symm, Option.or_none.symm, rfl⟩

theorem empty_merge (g : Graph) : empty.merge g = .ok g :=
  merge_eq_ok_iff.2 ⟨fun _ _ => List.not_mem_nil, rfl, rfl, Option.or_none.symm⟩

/-- Of three graphs it does not matter which two are merged first. -/
theorem merge_assoc (a b c abc : Graph) :
    (do (← a.merge b).merge c) = .ok abc ↔ (do a.merge (← b.merge c)) = .ok abc := by
  constructor
  · intro hmerged
    obtain ⟨ab, hfirst, hsecond⟩ := bind_eq_ok_iff.1 hmerged
    have hnames := names_of_merge hfirst
    obtain ⟨hfresh, hentries, hfirst?, hlast?⟩ := merge_eq_ok_iff.1 hfirst
    obtain ⟨hfresh', hentries', hfirst?', hlast?'⟩ := merge_eq_ok_iff.1 hsecond
    simp only [hnames, List.mem_append, not_or] at hfresh'
    obtain ⟨bc, hinner⟩ := exists_merge fun n hmem => (hfresh' n hmem).2
    have hnames' := names_of_merge hinner
    obtain ⟨-, hentries'', hfirst?'', hlast?''⟩ := merge_eq_ok_iff.1 hinner
    refine bind_eq_ok_iff.2 ⟨bc, hinner, merge_eq_ok_iff.2 ⟨?_, ?_, ?_, ?_⟩⟩
    · rw [hnames', List.forall_mem_append]
      exact ⟨hfresh, fun n hmem => (hfresh' n hmem).1⟩
    · rw [hentries', hentries, hentries'', List.append_assoc]
    · rw [hfirst?', hfirst?, hfirst?'', Option.or_assoc]
    · rw [hlast?', hlast?, hlast?'', Option.or_assoc]
  · intro hmerged
    obtain ⟨bc, hinner, hsecond⟩ := bind_eq_ok_iff.1 hmerged
    have hnames := names_of_merge hinner
    obtain ⟨hfresh, hentries, hfirst?, hlast?⟩ := merge_eq_ok_iff.1 hinner
    obtain ⟨hfresh', hentries', hfirst?', hlast?'⟩ := merge_eq_ok_iff.1 hsecond
    rw [hnames, List.forall_mem_append] at hfresh'
    obtain ⟨ab, hfirst⟩ := exists_merge hfresh'.1
    have hnames' := names_of_merge hfirst
    obtain ⟨-, hentries'', hfirst?'', hlast?''⟩ := merge_eq_ok_iff.1 hfirst
    refine bind_eq_ok_iff.2 ⟨ab, hfirst, merge_eq_ok_iff.2 ⟨?_, ?_, ?_, ?_⟩⟩
    · intro n hmem hold
      rw [hnames', List.mem_append] at hold
      exact hold.elim (hfresh'.2 n hmem) (hfresh n hmem)
    · rw [hentries', hentries, hentries'', List.append_assoc]
    · rw [hfirst?', hfirst?, hfirst?'', Option.or_assoc]
    · rw [hlast?', hlast?, hlast?'', Option.or_assoc]

/-- A graph that was built by changes is coherent. A change is made as a whole or not at all.
Merging a graph that was built is adding its tasks one by one and keeps the tasks that were there;
it has the empty graph as its neutral element, and it does not matter which two of three graphs are
merged first. -/
theorem built_coherent {g : Graph} (hbuilt : g.Built) :
    g.Coherent ∧ (g.first? = none ↔ g.names = []) ∧ (g.last? = none ↔ g.names = []) ∧
    (∀ edit : Edit, edit.make g = g.atomically (edit.outcome g)) ∧
    (∀ other, other.Built →
      g.merge other = other.tasks.entries.foldlM (fun g e => g.add e.1 e.2) g ∧
      ∀ g', g.merge other = .ok g' → ∀ n t, g.get? n = some t → g'.get? n = some t) ∧
    g.merge .empty = .ok g ∧ empty.merge g = .ok g ∧
    ∀ b c abc, (do (← g.merge b).merge c) = .ok abc ↔ (do g.merge (← b.merge c)) = .ok abc := by
  have hcoherent := hbuilt.coherent
  refine ⟨hcoherent, ?_, ?_, fun edit => edit.make_eq g, fun other hbuilt' => ⟨?_, ?_⟩,
    merge_empty g, empty_merge g, merge_assoc g⟩
  · rw [hcoherent.first, List.head?_eq_none_iff]
  · rw [hcoherent.last, List.getLast?_eq_none_iff]
  · exact merge_eq_foldlM_add hbuilt'.coherent g
  · exact fun g' hmerged n t hown => (get?_of_merge hmerged n t).2 (.inl hown)

/-- A task whose references name tasks that are missing or come later, with which another graph is
merged, once more in vain. -/
theorem built_coherent_merged :
    let other := ((Edit.add "c" (.constant (.bool true))).make .empty).2
    let g₀ := ((Edit.add "b" ⟨.eval "x", [.tuple [.absent, .ref "a"]], ["c"]⟩).make .empty).2
    let g := ((Edit.merge other).make g₀).2
    g.Built ∧ g.Coherent ∧ g.names = ["b", "c"] ∧
      (Edit.merge other).make g = (.error (.duplicateTask "c"), g) := by
  intro other g₀ g
  have hbuilt' : other.Built := .edit _ .empty nofun
  have hbuilt₀ : g₀.Built := .edit _ .empty nofun
  have hbuilt : g.Built := by
    refine .edit _ hbuilt₀ fun other' hsame => ?_
    cases hsame
    exact hbuilt'
  obtain ⟨hcoherent, -, -, hwhole, -⟩ := built_coherent hbuilt
  exact ⟨hbuilt, hcoherent, rfl, hwhole (.merge other)⟩

end ColumnFlow.Graph
