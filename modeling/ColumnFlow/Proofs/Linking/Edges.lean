import Mathlib.Logic.Relation
import ColumnFlow.Proofs.Linking.Acceptance
import ColumnFlow.Proofs.Rendering

/-!
# The order that linking adds

Linking orders exactly those tasks that read or bind the same variable, as long as no variable has
the name of a task. What mentions a name as a task is not told apart from what reads it as a
variable, so that a variable with the name of a task orders tasks which have nothing to do with it.
-/

namespace ColumnFlow

/-! ## Tasks that mention a name -/

/-- A task whose dependencies are in the graph mentions a name that is not as a variable. -/
theorem Graph.Legal.mentions_iff {g : Graph} {n x : String} {t : Task} (hlegal : g.Legal g.names)
    (htask : g.get? n = some t) (hapart : x ∉ g.names) : t.mentions x = true ↔ x ∈ t.columns := by
  obtain ⟨t', htask', hinside⟩ := hlegal.closed (mem_names_of_get? htask)
  cases htask.symm.trans htask'
  have hrefs : x ∉ t.refs := fun href =>
    hapart (hinside x (Task.mem_dependencies_iff.2 (.inl href)))
  have hafter : x ∉ t.after := fun hwait =>
    hapart (hinside x (Task.mem_dependencies_iff.2 (.inr hwait)))
  simp [Task.mentions, hrefs, hafter]

/-- An eval task of a compiled definition mentions nothing but the variables it reads. -/
theorem Task.Plain.mentions_iff {t : Task} {text x : String} (hplain : t.Plain)
    (heval : t.work = .eval text) : t.mentions x = true ↔ x ∈ t.columns := by
  simp [Task.mentions, hplain.refs text heval, hplain.unordered]

/-! ## Tasks of a definition -/

/-- What the first `k` definitions are linked to. -/
def linkedUpto (registry : Registry) (definitions : List (String × String)) (k : Nat) : Linked :=
  match link (definitions.take k) registry with
  | .ok first => first
  | .error _ => .empty

/-- The tasks that definition `k` adds to those of the definitions before it. -/
def TaskOf (registry : Registry) (definitions : List (String × String)) (k : Nat) (n : String) :
    Prop :=
  n ∈ (linkedUpto registry definitions (k + 1)).graph.names ∧
    n ∉ (linkedUpto registry definitions k).graph.names

variable {registry : Registry} {definitions : List (String × String)} {linked : Linked}
variable {i j k : Nat} {n x c : String}

/-- Definition `k` among all: what is linked before it, what it adds, and that this stays. -/
structure Placed (registry : Registry) (definitions : List (String × String)) (linked : Linked)
    (k : Nat) (l : Linker) (d : String × String) (e : Expr) (part : Graph) (output : String)
    (names : NameSupply) (l' : Linker) : Prop where
  known : definitions[k]? = some d
  orderly : l.Orderly
  defined : Linker.Defined registry l d e part output names l'
  before : linkedUpto registry definitions k = l.linked
  upto : linkedUpto registry definitions (k + 1) = l'.linked
  targets : l.linked.commits.map Prod.fst = (definitions.take k).map Prod.fst
  stays : l'.linked.graph.Extends linked.graph

theorem linkedUpto_of_ok {l : Linker}
    (hfolded : (definitions.take k).foldlM (Linker.define registry) .start = .ok l) :
    linkedUpto registry definitions k = l.linked := by
  unfold linkedUpto link
  rw [hfolded]
  rfl

/-- Every definition of an accepted list has its place. -/
theorem exists_placed (haccepted : link definitions registry = .ok linked)
    (hlt : k < definitions.length) :
    ∃ l d e part output names l',
      Placed registry definitions linked k l d e part output names l' := by
  have hsplit : definitions = definitions.take k ++ definitions[k] :: definitions.drop (k + 1) := by
    rw [← List.drop_eq_getElem_cons hlt, List.take_append_drop]
  rw [hsplit] at haccepted
  obtain ⟨l, e, part, output, names, l', final, hfirst, horderly, hdefined, -, hprecedes, hsame⟩ :=
    exists_defined haccepted
  have hnext : l.define registry definitions[k] = .ok l' :=
    Linker.define_eq_ok_iff.2 ⟨e, part, output, names, hdefined⟩
  refine ⟨l, definitions[k], e, part, output, names, l', List.getElem?_eq_getElem hlt, horderly,
    hdefined, linkedUpto_of_ok hfirst, linkedUpto_of_ok ?_, ?_, ?_⟩
  · rw [List.take_succ_eq_append_getElem hlt, List.foldlM_append, hfirst]
    exact List.foldlM_cons.trans (bind_eq_ok_iff.2 ⟨l', hnext, rfl⟩)
  · exact (Linker.orderly_start.foldlM_define hfirst).2.2
  · exact fun n t htask => hsame ▸ hprecedes.get? htask

namespace Placed

variable {l l' : Linker} {d : String × String} {e : Expr} {part : Graph} {output : String}
variable {names : NameSupply}
variable (hplaced : Placed registry definitions linked k l d e part output names l')

include hplaced

/-- The tasks of a definition are those it is compiled to and its commit. -/
theorem taskOf_iff : TaskOf registry definitions k n ↔
    n ∈ part.names ∨ n = Linker.commitName names d.1 := by
  have hnodup : l'.linked.graph.names.Nodup := l'.linked.graph.tasks.nodup
  rw [hplaced.defined.attached.names] at hnodup
  have hapart := (List.nodup_append.1 hnodup).2.2
  rw [TaskOf, hplaced.upto, hplaced.before, hplaced.defined.attached.names, List.mem_append,
    List.mem_append, List.mem_singleton]
  constructor
  · rintro ⟨hold | hnew, hfresh⟩
    · exact absurd hold hfresh
    · exact hnew
  · intro hnew
    refine ⟨.inr hnew, fun hold => hapart n hold n ?_ rfl⟩
    rwa [List.mem_append, List.mem_singleton]

/-- A task that the definition is compiled to waits for the latest commits of what it mentions. -/
theorem part_task (hmem : n ∈ part.names) :
    ∃ t after, part.get? n = some t ∧ t.Plain ∧
      linked.graph.get? n = some ⟨t.work, t.args, after⟩ ∧
      ∀ a, a ∈ after ↔ ∃ x, l.linked.commitOf? x = some a ∧ t.mentions x = true := by
  obtain ⟨t, htask⟩ := Graph.mem_names_iff.1 hmem
  have hplain := hplaced.defined.compiled.emits.plain (n, t)
    ((Table.get?_eq_some_iff _ _ _).1 htask)
  obtain ⟨after, htask', hmembers⟩ := hplaced.defined.attached.part_task hplain htask
  refine ⟨t, after, htask, hplain, hplaced.stays n _ htask', fun a => (hmembers a).trans ?_⟩
  exact exists_congr fun x => and_congr_left' (by rw [← hplaced.orderly.latest])

/-- The commit waits for the earlier tasks that mention its variable and its latest commit. -/
theorem commit_task :
    ∃ after, linked.graph.get? (Linker.commitName names d.1) =
        some ⟨.commit d.1, [.ref output], after⟩ ∧
      ∀ a, a ∈ after ↔ a ∈ l.linked.graph.dependents d.1 ∨ l.linked.commitOf? d.1 = some a := by
  obtain ⟨after, htask, hmembers⟩ := hplaced.defined.attached.commit_task
  refine ⟨after, hplaced.stays _ _ htask, fun a => (hmembers a).trans (or_congr_right ?_)⟩
  rw [← hplaced.orderly.latest]

theorem extends' : l.linked.graph.Extends linked.graph :=
  fun n t htask => hplaced.stays n t (hplaced.defined.attached.old n t htask)

/-- A committed variable is that of an earlier definition. -/
theorem mem_of_commitOf? (hlatest : l.linked.commitOf? x = some c) :
    ∃ d ∈ definitions, d.1 = x := by
  have hmem : x ∈ l.linked.commits.map Prod.fst :=
    List.mem_map_of_mem (Linker.mem_of_commitOf? hlatest)
  rw [hplaced.targets] at hmem
  obtain ⟨d, hearlier, heq⟩ := List.mem_map.1 hmem
  exact ⟨d, List.mem_of_mem_take hearlier, heq⟩

end Placed

theorem linkedUpto_length (haccepted : link definitions registry = .ok linked) :
    linkedUpto registry definitions definitions.length = linked := by
  unfold linkedUpto
  rw [List.take_length, haccepted]

theorem names_linkedUpto_succ (haccepted : link definitions registry = .ok linked)
    (hmem : n ∈ (linkedUpto registry definitions k).graph.names) :
    n ∈ (linkedUpto registry definitions (k + 1)).graph.names := by
  by_cases hlt : k < definitions.length
  · obtain ⟨l, d, e, part, output, names, l', hplaced⟩ := exists_placed haccepted hlt
    rw [hplaced.upto, hplaced.defined.attached.names]
    rw [hplaced.before] at hmem
    exact List.mem_append_left _ hmem
  · unfold linkedUpto at hmem ⊢
    rw [List.take_of_length_le (by omega)] at hmem ⊢
    exact hmem

/-- Tasks that are there after some definitions are there after more. -/
theorem names_linkedUpto_mono (haccepted : link definitions registry = .ok linked) (hle : i ≤ k)
    (hmem : n ∈ (linkedUpto registry definitions i).graph.names) :
    n ∈ (linkedUpto registry definitions k).graph.names := by
  induction hle with
  | refl => exact hmem
  | step _ ih => exact names_linkedUpto_succ haccepted ih

theorem TaskOf.lt (hown : TaskOf registry definitions k n) : k < definitions.length := by
  refine Nat.lt_of_not_le fun hle => hown.2 ?_
  have hsame : linkedUpto registry definitions k = linkedUpto registry definitions (k + 1) := by
    unfold linkedUpto
    rw [List.take_of_length_le hle, List.take_of_length_le (by omega)]
  exact hsame ▸ hown.1

/-- Every task belongs to a definition. -/
theorem exists_taskOf_of_mem (hmem : n ∈ (linkedUpto registry definitions k).graph.names) :
    ∃ i < k, TaskOf registry definitions i n := by
  induction k with
  | zero => cases hmem
  | succ k ih =>
    by_cases hold : n ∈ (linkedUpto registry definitions k).graph.names
    · obtain ⟨i, hlt, hown⟩ := ih hold
      exact ⟨i, by omega, hown⟩
    · exact ⟨k, by omega, hmem, hold⟩

/-- A task is of one definition. -/
theorem TaskOf.unique (haccepted : link definitions registry = .ok linked)
    (hown : TaskOf registry definitions i n) (hown' : TaskOf registry definitions j n) : i = j := by
  rcases Nat.lt_trichotomy i j with hlt | hsame | hlt
  · exact absurd (names_linkedUpto_mono haccepted hlt hown.1) hown'.2
  · exact hsame
  · exact absurd (names_linkedUpto_mono haccepted hlt hown'.1) hown.2

/-! ## Definitions that depend on each other -/

/-- Definition `k` binds the variable. -/
def Binds (definitions : List (String × String)) (k : Nat) (x : String) : Prop :=
  (definitions.map Prod.fst)[k]? = some x

/-- Definition `i` is the last one before `j` that binds the variable. -/
structure BindsLast (definitions : List (String × String)) (i j : Nat) (x : String) : Prop where
  earlier : i < j
  binds : Binds definitions i x
  last : ∀ m, i < m → m < j → ¬ Binds definitions m x

/-- A task of definition `k` reads the variable. -/
def Reads (registry : Registry) (definitions : List (String × String)) (linked : Linked) (k : Nat)
    (x : String) : Prop :=
  ∃ n, TaskOf registry definitions k n ∧ x ∈ linked.graph.columnsOf n

/-- Definition `j` reads what definition `i` binds, or has to bind a variable after it. -/
inductive Needs (registry : Registry) (definitions : List (String × String)) (linked : Linked)
    (i j : Nat) : Prop where
  | reads {x : String} : BindsLast definitions i j x → Reads registry definitions linked j x →
      Needs registry definitions linked i j
  | rebinds {x : String} : BindsLast definitions i j x → Binds definitions j x →
      Needs registry definitions linked i j
  | overwrites {x : String} : i < j → Reads registry definitions linked i x →
      Binds definitions j x → Needs registry definitions linked i j

/-- The latest commit of a variable is the task of the last definition that binds it. -/
theorem bindsLast_of_commitOf? (haccepted : link definitions registry = .ok linked)
    (hle : k ≤ definitions.length)
    (hlatest : (linkedUpto registry definitions k).commitOf? x = some c) :
    ∃ i, BindsLast definitions i k x ∧ TaskOf registry definitions i c := by
  induction k with
  | zero => cases hlatest
  | succ k ih =>
    obtain ⟨l, d, e, part, output, names, l', hplaced⟩ := exists_placed haccepted hle
    have hbinds : Binds definitions k d.1 := by
      rw [Binds, List.getElem?_map, hplaced.known, Option.map_some]
    rw [hplaced.upto, hplaced.defined.commitOf?_eq] at hlatest
    split at hlatest
    · next hsame =>
      cases hlatest
      exact ⟨k, ⟨Nat.lt_succ_self k, hsame ▸ hbinds, by omega⟩, hplaced.taskOf_iff.2 (.inr rfl)⟩
    · next hother =>
      rw [← hplaced.before] at hlatest
      obtain ⟨i, ⟨hlt, hbinds', hlast⟩, hown⟩ := ih (by omega) hlatest
      refine ⟨i, ⟨by omega, hbinds', fun m habove hbelow => ?_⟩, hown⟩
      rcases Nat.lt_or_eq_of_le (Nat.le_of_lt_succ hbelow) with hless | hsame
      · exact hlast m habove hless
      · rintro hbinds''
        subst hsame
        exact hother (Option.some.inj (hbinds''.symm.trans hbinds))

/-! ## Edges -/

/-- The order that linking adds is the one that reading and binding variables requires. -/
structure Linked.OrderedExactly (registry : Registry) (definitions : List (String × String))
    (linked : Linked) : Prop where
  /-- Every task is of one definition. -/
  placed : ∀ n ∈ linked.graph.names, ∃! k, TaskOf registry definitions k n
  /-- An eval task waits for the commits that were the latest of what it reads. -/
  readers : ∀ k n t text, TaskOf registry definitions k n → linked.graph.get? n = some t →
    t.work = .eval text → ∀ c, c ∈ t.after ↔
      ∃ x ∈ t.columns, (linkedUpto registry definitions k).commitOf? x = some c
  /-- A commit waits for the earlier tasks that read its variable and for its latest commit. -/
  commits : ∀ k n t x, TaskOf registry definitions k n → linked.graph.get? n = some t →
    t.work = .commit x → ∀ c, c ∈ t.after ↔
      (c ∈ (linkedUpto registry definitions k).graph.names ∧ x ∈ linked.graph.columnsOf c) ∨
        (linkedUpto registry definitions k).commitOf? x = some c
  others : ∀ n t, linked.graph.get? n = some t → (∀ text, t.work ≠ .eval text) →
    (∀ x, t.work ≠ .commit x) → t.after = []
  /-- A task depends on tasks of definitions that its own one needs. -/
  ancestors : ∀ i j m n, TaskOf registry definitions i m → TaskOf registry definitions j n →
    linked.graph.Before m n →
    Relation.ReflTransGen (Needs registry definitions linked) i j

namespace Placed

variable {l l' : Linker} {d : String × String} {e : Expr} {part : Graph} {output : String}
variable {names : NameSupply}
variable (hplaced : Placed registry definitions linked k l d e part output names l')

include hplaced

theorem committed?_part {t : Task} (hmem : n ∈ part.names) (htask : linked.graph.get? n = some t) :
    ∀ x, t.work ≠ .commit x := by
  obtain ⟨t', after, -, hplain, htask', -⟩ := hplaced.part_task hmem
  cases htask.symm.trans htask'
  intro x hcommit
  have hunbound := hplain.unbound
  unfold Task.committed? at hunbound
  dsimp only at hcommit
  rw [hcommit] at hunbound
  cases hunbound

/-- An eval task waits for the latest commits of the variables it reads. -/
theorem readers {t : Task} {text : String} (hown : TaskOf registry definitions k n)
    (htask : linked.graph.get? n = some t) (heval : t.work = .eval text) :
    c ∈ t.after ↔ ∃ x ∈ t.columns, (linkedUpto registry definitions k).commitOf? x = some c := by
  rw [hplaced.before]
  rcases hplaced.taskOf_iff.1 hown with hmem | rfl
  · obtain ⟨t', after, -, hplain, htask', hmembers⟩ := hplaced.part_task hmem
    cases htask.symm.trans htask'
    refine (hmembers c).trans (exists_congr fun x => ?_)
    rw [hplain.mentions_iff heval, and_comm]
    rfl
  · obtain ⟨after, htask', -⟩ := hplaced.commit_task
    cases htask.symm.trans htask'
    cases heval

/-- A commit waits for the readers of its variable and for the commit before it. -/
theorem commits {t : Task} (hapart : d.1 ∉ linked.graph.names)
    (hown : TaskOf registry definitions k n) (htask : linked.graph.get? n = some t)
    (hcommit : t.work = .commit x) :
    c ∈ t.after ↔
      (c ∈ (linkedUpto registry definitions k).graph.names ∧ x ∈ linked.graph.columnsOf c) ∨
        (linkedUpto registry definitions k).commitOf? x = some c := by
  rw [hplaced.before]
  rcases hplaced.taskOf_iff.1 hown with hmem | rfl
  · exact absurd hcommit (hplaced.committed?_part hmem htask x)
  · obtain ⟨after, htask', hmembers⟩ := hplaced.commit_task
    cases htask.symm.trans htask'
    cases hcommit
    refine (hmembers c).trans (or_congr_left ?_)
    have hfresh : d.1 ∉ l.linked.graph.names := by
      intro hold
      obtain ⟨t, htask⟩ := Graph.mem_names_iff.1 hold
      exact hapart (Graph.mem_names_of_get? (hplaced.extends' _ t htask))
    rw [Graph.mem_dependents_iff]
    constructor
    · rintro ⟨t, htask, hmentions⟩
      refine ⟨Graph.mem_names_of_get? htask, ?_⟩
      rw [Graph.columnsOf, hplaced.extends' c t htask]
      exact (hplaced.orderly.legal.mentions_iff htask hfresh).1 hmentions
    · rintro ⟨hmem, hreads⟩
      obtain ⟨t, htask⟩ := Graph.mem_names_iff.1 hmem
      rw [Graph.columnsOf, hplaced.extends' c t htask] at hreads
      exact ⟨t, htask, (hplaced.orderly.legal.mentions_iff htask hfresh).2 hreads⟩

/-- No other task waits for anything but its arguments. -/
theorem others {t : Task} (hapart : ∀ d ∈ definitions, d.1 ∉ linked.graph.names)
    (hown : TaskOf registry definitions k n) (htask : linked.graph.get? n = some t)
    (hnoText : ∀ text, t.work ≠ .eval text) (hnoCommit : ∀ x, t.work ≠ .commit x) :
    t.after = [] := by
  rcases hplaced.taskOf_iff.1 hown with hmem | rfl
  · obtain ⟨t', after, htask₀, hplain, htask', hmembers⟩ := hplaced.part_task hmem
    cases htask.symm.trans htask'
    refine List.eq_nil_iff_forall_not_mem.2 fun c hwait => ?_
    obtain ⟨x, hlatest, hmentions⟩ := (hmembers c).1 hwait
    obtain ⟨d', hknown, rfl⟩ := hplaced.mem_of_commitOf? hlatest
    have hfresh : d'.1 ∉ part.names := by
      intro hinside
      obtain ⟨t, after, -, -, htask, -⟩ := hplaced.part_task hinside
      exact hapart d' hknown (Graph.mem_names_of_get? htask)
    have hreads := (hplaced.defined.compiled.legal.mentions_iff htask₀ hfresh).1 hmentions
    rw [hplain.columns hnoText] at hreads
    cases hreads
  · obtain ⟨after, htask', -⟩ := hplaced.commit_task
    cases htask.symm.trans htask'
    exact absurd rfl (hnoCommit d.1)

/-- What a task depends on directly is of its own definition or of one that this one needs. -/
theorem dependency {m : String} (haccepted : link definitions registry = .ok linked)
    (hapart : ∀ d ∈ definitions, d.1 ∉ linked.graph.names) (hown : TaskOf registry definitions k n)
    (hedge : m ∈ linked.graph.dependenciesOf n) :
    ∃ i, TaskOf registry definitions i m ∧ (i = k ∨ Needs registry definitions linked i k) := by
  have hle : k ≤ definitions.length := Nat.le_of_lt hown.lt
  have hbinds : Binds definitions k d.1 := by
    rw [Binds, List.getElem?_map, hplaced.known, Option.map_some]
  obtain ⟨t, htask⟩ : ∃ t, linked.graph.get? n = some t := by
    rcases hplaced.taskOf_iff.1 hown with hmem | rfl
    · obtain ⟨t, after, -, -, htask, -⟩ := hplaced.part_task hmem
      exact ⟨_, htask⟩
    · obtain ⟨after, htask, -⟩ := hplaced.commit_task
      exact ⟨_, htask⟩
  rw [Graph.dependenciesOf_eq htask] at hedge
  -- An argument refers within the definition; what a task only comes after was added by linking,
  -- for a reason that its work tells.
  rcases Task.mem_dependencies_iff.1 hedge with href | hwait
  · refine ⟨k, hplaced.taskOf_iff.2 (.inl ?_), .inl rfl⟩
    rcases hplaced.taskOf_iff.1 hown with hmem | rfl
    · obtain ⟨t', after, htask₀, -, htask', -⟩ := hplaced.part_task hmem
      cases htask.symm.trans htask'
      obtain ⟨t'', htask₁, hinside⟩ := hplaced.defined.compiled.legal.closed hmem
      cases htask₀.symm.trans htask₁
      exact hinside m (Task.mem_dependencies_iff.2 (.inl href))
    · obtain ⟨after, htask', -⟩ := hplaced.commit_task
      cases htask.symm.trans htask'
      cases List.mem_singleton.1 href
      exact hplaced.defined.compiled.drawn.2.1
  · cases hwork : t.work with
    | eval text =>
      obtain ⟨x, hreads, hlatest⟩ := (hplaced.readers hown htask hwork).1 hwait
      obtain ⟨i, hlast, hown'⟩ := bindsLast_of_commitOf? haccepted hle hlatest
      refine ⟨i, hown', .inr (.reads hlast ⟨n, hown, ?_⟩)⟩
      rwa [Graph.columnsOf, htask]
    | commit x =>
      have hbinds' : Binds definitions k x := by
        rcases hplaced.taskOf_iff.1 hown with hmem | rfl
        · exact absurd hwork (hplaced.committed?_part hmem htask x)
        · obtain ⟨after, htask', -⟩ := hplaced.commit_task
          cases htask.symm.trans htask'
          cases hwork
          exact hbinds
      have hfresh : d.1 ∉ linked.graph.names := hapart d (List.mem_of_getElem? hplaced.known)
      rcases (hplaced.commits hfresh hown htask hwork).1 hwait with ⟨hmem, hreads⟩ | hlatest
      · obtain ⟨i, hlt, hown'⟩ := exists_taskOf_of_mem hmem
        exact ⟨i, hown', .inr (.overwrites hlt ⟨m, hown', hreads⟩ hbinds')⟩
      · obtain ⟨i, hlast, hown'⟩ := bindsLast_of_commitOf? haccepted hle hlatest
        exact ⟨i, hown', .inr (.rebinds hlast hbinds')⟩
    | constant value =>
      rw [hplaced.others hapart hown htask (by simp [hwork]) (by simp [hwork])] at hwait
      cases hwait
    | call function =>
      rw [hplaced.others hapart hown htask (by simp [hwork]) (by simp [hwork])] at hwait
      cases hwait

end Placed

/-- Everything a task depends on is of a definition that its own one needs, directly or through
others. -/
theorem needs_of_before {m : String} (haccepted : link definitions registry = .ok linked)
    (hapart : ∀ d ∈ definitions, d.1 ∉ linked.graph.names) (hown : TaskOf registry definitions i m)
    (hbefore : linked.graph.Before m n) (hown' : TaskOf registry definitions j n) :
    Relation.ReflTransGen (Needs registry definitions linked) i j := by
  have hstep {m n : String} {j : Nat} (hown : TaskOf registry definitions j n)
      (hedge : m ∈ linked.graph.dependenciesOf n) : ∃ i, TaskOf registry definitions i m ∧
        Relation.ReflTransGen (Needs registry definitions linked) i j := by
    obtain ⟨l, d, e, part, output, names, l', hplaced⟩ := exists_placed haccepted hown.lt
    obtain ⟨i, hown', rfl | hneeds⟩ := hplaced.dependency haccepted hapart hown hedge
    · exact ⟨i, hown', .refl⟩
    · exact ⟨i, hown', .single hneeds⟩
  induction hbefore generalizing j with
  | direct hedge =>
    obtain ⟨i', hown'', hneeds⟩ := hstep hown' hedge
    exact hown.unique haccepted hown'' ▸ hneeds
  | through _ hedge ih =>
    obtain ⟨i', hown'', hneeds⟩ := hstep hown' hedge
    exact (ih hown'').trans hneeds

/-- Where no variable has the name of a task, linking adds exactly the edges that the reading and
binding of variables requires. -/
theorem link_orders_exactly (haccepted : link definitions registry = .ok linked)
    (hapart : ∀ d ∈ definitions, d.1 ∉ linked.graph.names) :
    linked.OrderedExactly registry definitions := by
  refine ⟨?_, ?_, ?_, ?_, ?_⟩
  · intro n hmem
    rw [← linkedUpto_length haccepted] at hmem
    obtain ⟨k, -, hown⟩ := exists_taskOf_of_mem hmem
    exact ⟨k, hown, fun j hown' => hown'.unique haccepted hown⟩
  · intro k n t text hown htask heval c
    obtain ⟨l, d, e, part, output, names, l', hplaced⟩ := exists_placed haccepted hown.lt
    exact hplaced.readers hown htask heval
  · intro k n t x hown htask hcommit c
    obtain ⟨l, d, e, part, output, names, l', hplaced⟩ := exists_placed haccepted hown.lt
    exact hplaced.commits (hapart d (List.mem_of_getElem? hplaced.known)) hown htask hcommit
  · intro n t htask hnoText hnoCommit
    have hmem := Graph.mem_names_of_get? htask
    rw [← linkedUpto_length haccepted] at hmem
    obtain ⟨k, hlt, hown⟩ := exists_taskOf_of_mem hmem
    obtain ⟨l, d, e, part, output, names, l', hplaced⟩ := exists_placed haccepted hlt
    exact hplaced.others hapart hown htask hnoText hnoCommit
  · intro i j m n hown hown' hbefore
    exact needs_of_before haccepted hapart hown hbefore hown'

/-- A variable that is read and then overwritten: its commit waits for the reader. -/
theorem link_orders_exactly_overwrite :
    let definitions := [("y", "x"), ("x", "True")]
    ∃ linked, link definitions .empty = .ok linked ∧
      (∀ d ∈ definitions, d.1 ∉ linked.graph.names) ∧ linked.OrderedExactly .empty definitions := by
  intro definitions
  have hwellFormed : (Expr.column "x").WellFormed := ⟨.word (by decide) (by decide), trivial⟩
  have hreads : Expr.parse "x" = .ok (.column "x") := Expr.parse_render_of_wellFormed hwellFormed
  have hbinds : Expr.parse "True" = .ok (.literal (.bool true)) :=
    @Expr.parse_render_of_wellFormed (.literal (.bool true)) trivial
  obtain ⟨l, hfirst, hnames₁, part, output, names, hbuilt, hnames₂, hcommit⟩ :
      ∃ l, [("y", "x")].foldlM (Linker.define .empty) .start = .ok l ∧
        l.linked.graph.names = ["eval-0", "commit-y-0"] ∧ ∃ part output names,
          (Expr.literal (.bool true)).buildWith l.names .empty = (.ok (part, output), names) ∧
            part.names = ["constant-0"] ∧ Linker.commitName names "x" = "commit-x-0" := by
    simp only [List.foldlM_cons, List.foldlM_nil, Linker.define.eq_def _ Linker.start, hreads,
      Except.mapError]
    exact ⟨_, rfl, rfl, _, _, _, rfl, rfl, by decide⟩
  obtain ⟨l', haccepted, hdefined⟩ :=
    @exists_link_snoc .empty _ ("x", "True") l _ _ _ _ hfirst ⟨hbinds, hbuilt⟩
  have hapart : ∀ d ∈ definitions, d.1 ∉ l'.linked.graph.names := by
    rw [hdefined.attached.names]
    dsimp only
    rw [hnames₁, hnames₂, hcommit]
    decide
  exact ⟨l'.linked, haccepted, hapart, link_orders_exactly haccepted hapart⟩

/-- The commit of a variable with the name of a task waits for the commit that reads this task, even
though it binds another variable and reads none. -/
theorem not_link_orders_exactly_namesake :
    let definitions := [("x", "a"), ("eval-0", "b")]
    ∃ linked, link definitions .empty = .ok linked ∧
      (∃ t, linked.graph.get? "commit-eval-0-0" = some t ∧ t.work = .commit "eval-0" ∧
        "commit-x-0" ∈ t.after) ∧
      linked.graph.get? "commit-x-0" = some ⟨.commit "x", [.ref "eval-0"], []⟩ ∧
      ¬ linked.OrderedExactly .empty definitions := by
  intro definitions
  have hwellFormed : (Expr.column "a").WellFormed := ⟨.word (by decide) (by decide), trivial⟩
  have hwellFormed' : (Expr.column "b").WellFormed := ⟨.word (by decide) (by decide), trivial⟩
  have hreads : Expr.parse "a" = .ok (.column "a") := Expr.parse_render_of_wellFormed hwellFormed
  have hreads' : Expr.parse "b" = .ok (.column "b") := Expr.parse_render_of_wellFormed hwellFormed'
  obtain ⟨l, hfirst, hcommits, htask, part, output, names, hbuilt, hcommit⟩ :
      ∃ l, [("x", "a")].foldlM (Linker.define .empty) .start = .ok l ∧
        l.linked.commits = [("x", "commit-x-0")] ∧
        l.linked.graph.get? "commit-x-0" = some ⟨.commit "x", [.ref "eval-0"], []⟩ ∧
        ∃ part output names,
          (Expr.column "b").buildWith l.names .empty = (.ok (part, output), names) ∧
            Linker.commitName names "eval-0" = "commit-eval-0-0" := by
    simp only [List.foldlM_cons, List.foldlM_nil, Linker.define.eq_def _ Linker.start, hreads,
      Except.mapError]
    exact ⟨_, rfl, rfl, rfl, _, _, _, rfl, by decide⟩
  obtain ⟨l', haccepted, hdefined⟩ :=
    @exists_link_snoc .empty _ ("eval-0", "b") l _ _ _ _ hfirst ⟨hreads', hbuilt⟩
  obtain ⟨after, htask', hmembers⟩ := hdefined.attached.commit_task
  dsimp only at htask' hmembers
  rw [hcommit] at htask'
  have hwaits : "commit-x-0" ∈ after :=
    (hmembers _).2 (.inl (Graph.mem_dependents_iff.2 ⟨_, htask, by decide⟩))
  have hkept := hdefined.attached.old _ _ htask
  refine ⟨l'.linked, haccepted, ⟨_, htask', rfl, hwaits⟩, hkept, fun hexactly => ?_⟩
  obtain ⟨k, hown, -⟩ := hexactly.placed _ (Graph.mem_names_of_get? htask')
  rcases (hexactly.commits k _ _ _ hown htask' rfl _).1 hwaits with ⟨-, hreads⟩ | hlatest
  · rw [Graph.columnsOf, hkept] at hreads
    cases hreads
  · -- neither before the first nor before the second definition is there such a commit
    have hlt : k < 2 := hown.lt
    obtain rfl | rfl : k = 0 ∨ k = 1 := by omega
    · cases hlatest
    · rw [linkedUpto_of_ok hfirst, Linked.commitOf?, hcommits] at hlatest
      cases hlatest

end ColumnFlow
