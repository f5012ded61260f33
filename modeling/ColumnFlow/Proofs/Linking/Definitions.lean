import Mathlib.Data.List.Basic
import ColumnFlow.Proofs.Linking.Attachment
import ColumnFlow.Proofs.Lookups

/-!
# Linked definitions

A definition that is linked is compiled with names that nothing has yet and attached to what has
been linked before, which stays as it is. Whatever the variables are called, tasks depend on older
ones only, and each definition ends in a commit of its own.
-/

namespace ColumnFlow

/-! ## Growing tables -/

namespace Table

variable {α : Type}

/-- The bindings of a table are its names with what it answers for them. -/
theorem entries_eq (t : Table α) :
    t.keys.filterMap (fun k => (t.get? k).map fun v => (k, v)) = t.entries := by
  have hknown : ∀ e ∈ t.entries, (t.get? e.1).map (fun v => (e.1, v)) = some e :=
    fun e hmem => by rw [(get?_eq_some_iff t e.1 e.2).2 hmem, Option.map_some]
  rw [keys, List.filterMap_map]
  exact (List.filterMap_congr hknown).trans List.filterMap_some

/-- A table that begins with the names of another one, with the same values, begins with its
bindings. -/
theorem entries_prefix {t t' : Table α} (hkeys : t.keys <+: t'.keys)
    (hsame : ∀ k v, t.get? k = some v → t'.get? k = some v) : t.entries <+: t'.entries := by
  rw [← entries_eq t, ← entries_eq t']
  have hagree : ∀ k ∈ t.keys,
      (t.get? k).map (fun v => (k, v)) = (t'.get? k).map fun v => (k, v) := by
    intro k hmem
    cases hknown : t.get? k with
    | none => exact absurd hmem ((get?_eq_none_iff t k).1 hknown)
    | some v => rw [hsame k v hknown]
  rw [List.filterMap_congr hagree]
  exact hkeys.filterMap _

end Table

/-! ## The last task of a graph -/

namespace Graph

variable {g g' : Graph}

/-- The task that is added becomes the last. -/
theorem last?_add {name : String} {t : Task} (hadded : g.add name t = .ok g') :
    g'.last? = some name := by
  obtain ⟨-, -, rfl⟩ := add_eq_ok_iff.1 hadded
  rfl

theorem last?_appendDependency {task extra : String}
    (happended : g.appendDependency task extra = .ok g') : g'.last? = g.last? :=
  (reordered_of_appendDependency happended).2.2.2.last

/-- Adding edges leaves the last task as it is. -/
theorem last?_addEdges {edges : List (String × String)}
    (hadded : Linker.addEdges g edges = .ok g') : g'.last? = g.last? := by
  induction edges generalizing g with
  | nil =>
    cases hadded
    rfl
  | cons e es ih =>
    obtain ⟨m, hfirst, hrest⟩ := bind_eq_ok_iff.1 (List.foldlM_cons.symm.trans hadded)
    exact (ih hrest).trans (last?_appendDependency hfirst)

end Graph

/-! ## Linkers -/

namespace Linker

variable {registry : Registry} {l l' : Linker} {e : Expr} {part : Graph} {names : NameSupply}
variable {target text output commit n x : String}

/-- The name of the next commit of a variable. -/
def commitName (names : NameSupply) (target : String) : String :=
  (names.next ("commit-" ++ target)).1

/-- What attaching draws, and what it counts as the latest. -/
theorem attach_commits (hattached : l.attach target part output = .ok l') :
    l'.names = (l.names.next ("commit-" ++ target)).2 ∧
      l'.linked.commits = l.linked.commits ++ [(target, commitName l.names target)] ∧
      l'.linked.graph.last? = some (commitName l.names target) := by
  unfold attach at hattached
  obtain ⟨merged, -, hattached⟩ := bind_eq_ok_iff.1 hattached
  obtain ⟨ordered, -, hattached⟩ := bind_eq_ok_iff.1 hattached
  obtain ⟨committed, hadd, hattached⟩ := bind_eq_ok_iff.1 hattached
  obtain ⟨graph, hwrites, hattached⟩ := bind_eq_ok_iff.1 hattached
  cases hattached
  exact ⟨rfl, rfl, (Graph.last?_addEdges hwrites).trans (Graph.last?_add hadd)⟩

/-- What holds of the linked graph after any number of definitions, whatever their variables. -/
structure Orderly (l : Linker) : Prop where
  legal : l.linked.graph.Legal l.linked.graph.names
  drawn : ∀ n ∈ l.linked.graph.names, NameSupply.fresh.Drawn l.names n
  known : ∀ c ∈ l.linked.commitTasks, c ∈ l.linked.graph.names
  distinct : l.linked.commitTasks.Nodup
  latest : ∀ x, l.latest.get? x = l.linked.commitOf? x
  last : l.linked.graph.last? = l.linked.commitTasks.getLast?

theorem orderly_start : start.Orderly :=
  ⟨trivial, List.forall_mem_nil _, List.forall_mem_nil _, List.nodup_nil, fun _ => rfl, rfl⟩

/-- The latest commit of a variable is one of its commits. -/
theorem mem_of_commitOf? {linked : Linked} {c : String} (hlatest : linked.commitOf? x = some c) :
    (x, c) ∈ linked.commits := by
  obtain ⟨front, back, hsplit, -⟩ := List.lookup_eq_some_iff.1 hlatest
  rw [← List.mem_reverse, hsplit]
  exact List.mem_append_right _ List.mem_cons_self

theorem Orderly.latest_known (orderly : l.Orderly) {k : String}
    (hlatest : l.latest.get? x = some k) : k ∈ l.linked.graph.names := by
  rw [orderly.latest] at hlatest
  exact orderly.known k (List.mem_map_of_mem (mem_of_commitOf? hlatest))

/-- A compiled definition: what it parses and compiles to, with the names that are left. -/
structure Compiled (registry : Registry) (names : NameSupply) (text : String) (e : Expr)
    (part : Graph) (output : String) (names' : NameSupply) : Prop where
  parsed : Expr.parse text = .ok e
  built : e.buildWith names registry = (.ok (part, output), names')

theorem Compiled.emits (hcompiled : Compiled registry l.names text e part output names) :
    Emits registry [.expr e] [.ref output] part.tasks.entries :=
  buildWith_emits hcompiled.built

/-- The tasks of a compiled definition have new names, and the output is among them. -/
theorem Compiled.drawn (hcompiled : Compiled registry l.names text e part output names) :
    l.names.Grows names ∧ output ∈ part.names ∧ ∀ n ∈ part.names, l.names.Drawn names n := by
  obtain ⟨left, hgrows, hanswer⟩ := buildWith_answers e l.names registry
  split at hanswer
  · obtain ⟨g, o, hbuilt, hown, hdrawn⟩ := hanswer
    cases hcompiled.built.symm.trans hbuilt
    exact ⟨hgrows, hown, hdrawn⟩
  · cases hcompiled.built.symm.trans hanswer

theorem Compiled.legal (hcompiled : Compiled registry l.names text e part output names) :
    part.Legal part.names :=
  legal_of_emits hcompiled.emits

/-! ## One more definition -/

variable {d : String × String}

/-- A definition that is compiled and attached to what has been linked. -/
structure Defined (registry : Registry) (l : Linker) (d : String × String) (e : Expr) (part : Graph)
    (output : String) (names : NameSupply) (l' : Linker) : Prop where
  compiled : Compiled registry l.names d.2 e part output names
  attach : ({ l with names } : Linker).attach d.1 part output = .ok l'

/-- A definition is linked exactly if it is compiled and attached. -/
theorem define_eq_ok_iff : l.define registry d = .ok l' ↔
    ∃ e part output names, Defined registry l d e part output names l' := by
  obtain ⟨target, text⟩ := d
  constructor
  · intro hdefined
    obtain ⟨e, hparsed, hdefined⟩ := bind_eq_ok_iff.1 hdefined
    dsimp only at hdefined
    cases hbuilt : e.buildWith l.names registry with
    | mk result names =>
      rw [hbuilt] at hdefined
      obtain ⟨⟨part, output⟩, hcompiled, hdefined⟩ := bind_eq_ok_iff.1 hdefined
      cases mapError_eq_ok_iff.1 hcompiled
      exact ⟨e, part, output, names, ⟨mapError_eq_ok_iff.1 hparsed, hbuilt⟩,
        mapError_eq_ok_iff.1 hdefined⟩
  · rintro ⟨e, part, output, names, ⟨hparsed, hbuilt⟩, hattach⟩
    refine bind_eq_ok_iff.2 ⟨e, mapError_eq_ok_iff.2 hparsed, ?_⟩
    dsimp only
    rw [hbuilt]
    exact bind_eq_ok_iff.2 ⟨(part, output), rfl, mapError_eq_ok_iff.2 hattach⟩

namespace Defined

variable (hdefined : Defined registry l d e part output names l')

include hdefined

theorem attached :
    ({ l with names } : Linker).Attached d.1 part output (commitName names d.1) l' := by
  obtain ⟨commit, hattached⟩ := attach_ok hdefined.attach
  have hsame := hattached.commits.symm.trans (attach_commits hdefined.attach).2.1
  cases List.append_cancel_left hsame
  exact hattached

theorem commitTasks_eq :
    l'.linked.commitTasks = l.linked.commitTasks ++ [commitName names d.1] := by
  rw [Linked.commitTasks, hdefined.attached.commits, List.map_append]
  rfl

/-- The commit of a definition counts as the latest of its variable. -/
theorem commitOf?_eq :
    l'.linked.commitOf? x = if x = d.1 then some (commitName names d.1)
    else l.linked.commitOf? x := by
  rw [Linked.commitOf?, hdefined.attached.commits, List.reverse_append]
  change ((d.1, commitName names d.1) :: l.linked.commits.reverse).lookup x = _
  rw [List.lookup_cons]
  by_cases hsame : x = d.1
  · simp [hsame]
  · have hother : (x == d.1) = false := by simpa using hsame
    rw [hother, if_neg hsame]
    rfl

/-- Linking keeps what holds of the linked graph. -/
theorem orderly (hbefore : l.Orderly) : l'.Orderly := by
  have hattached := hdefined.attached
  obtain ⟨hsupply, -, hfinal⟩ := attach_commits hdefined.attach
  obtain ⟨hgrows, -, hdrawn⟩ := hdefined.compiled.drawn
  have hgrows' : names.Grows l'.names := hsupply ▸ NameSupply.grows_next
  have hlast : commitName names d.1 ∈ l'.linked.graph.names := by
    rw [hattached.names]
    exact List.mem_append_right _ (List.mem_append_right _ List.mem_cons_self)
  refine ⟨?_, ?_, ?_, ?_, ?_, ?_⟩
  · exact hattached.legal hdefined.compiled.emits (fun _ _ => hbefore.latest_known) hbefore.legal
  · rw [hattached.names]
    refine List.forall_mem_append.2 ⟨fun n hold => ?_,
      List.forall_mem_append.2 ⟨fun n hown => ?_, ?_⟩⟩
    · exact (hbefore.drawn n hold).mono_right (hgrows.trans hgrows')
    · exact ((hdrawn n hown).mono_left NameSupply.grows_fresh).mono_right hgrows'
    · rw [List.forall_mem_singleton, hsupply]
      exact NameSupply.drawn_next.mono_left NameSupply.grows_fresh
  · rw [hdefined.commitTasks_eq]
    refine List.forall_mem_append.2 ⟨fun c hmem => ?_, List.forall_mem_singleton.2 hlast⟩
    rw [hattached.names]
    exact List.mem_append_left _ (hbefore.known c hmem)
  · rw [hdefined.commitTasks_eq]
    refine List.nodup_append.2 ⟨hbefore.distinct, List.nodup_singleton _, ?_⟩
    intro c hmem c' hmem'
    rw [List.mem_singleton.1 hmem']
    exact ((hbefore.drawn c (hbefore.known c hmem)).mono_right hgrows).ne_next
  · intro y
    rw [hattached.latest, Table.get?_insert, hdefined.commitOf?_eq, ← hbefore.latest]
  · rw [hfinal, hdefined.commitTasks_eq, List.getLast?_concat]

end Defined

/-- What has been linked stays as it is when more is linked. -/
structure Precedes (l l' : Linker) : Prop where
  entries : l.linked.graph.tasks.entries <+: l'.linked.graph.tasks.entries
  commits : l.linked.commits <+: l'.linked.commits

theorem Precedes.refl (l : Linker) : l.Precedes l := ⟨List.prefix_rfl, List.prefix_rfl⟩

theorem Precedes.trans {l'' : Linker} (h : l.Precedes l') (h' : l'.Precedes l'') : l.Precedes l'' :=
  ⟨h.entries.trans h'.entries, h.commits.trans h'.commits⟩

theorem Precedes.get? {t : Task} (h : l.Precedes l') (htask : l.linked.graph.get? n = some t) :
    l'.linked.graph.get? n = some t :=
  (Table.get?_eq_some_iff _ _ _).2 (h.entries.mem ((Table.get?_eq_some_iff _ _ _).1 htask))

/-- Linking one more definition keeps what was linked before. -/
theorem Defined.precedes (hdefined : Defined registry l d e part output names l') :
    l.Precedes l' := by
  have hattached := hdefined.attached
  refine ⟨Table.entries_prefix ?_ hattached.old, ?_⟩
  · exact ⟨_, hattached.names.symm⟩
  · exact ⟨_, hattached.commits.symm⟩

/-! ## Lists of definitions -/

variable {rest : List (String × String)}

/-- What further definitions do to what has been linked. -/
theorem Orderly.foldlM_define (orderly : l.Orderly)
    (hlinked : rest.foldlM (define registry) l = .ok l') :
    l'.Orderly ∧ l.Precedes l' ∧
      l'.linked.commits.map Prod.fst = l.linked.commits.map Prod.fst ++ rest.map Prod.fst := by
  induction rest generalizing l with
  | nil =>
    cases hlinked
    exact ⟨orderly, .refl _, (List.append_nil _).symm⟩
  | cons d ds ih =>
    obtain ⟨m, hfirst, hlater⟩ := bind_eq_ok_iff.1 (List.foldlM_cons.symm.trans hlinked)
    obtain ⟨e, part, output, names, hdefined⟩ := define_eq_ok_iff.1 hfirst
    obtain ⟨horderly', hprecedes, htargets⟩ := ih (hdefined.orderly orderly) hlater
    refine ⟨horderly', hdefined.precedes.trans hprecedes, ?_⟩
    rw [htargets, hdefined.attached.commits, List.map_append, List.append_assoc]
    rfl

end Linker

variable {registry : Registry} {definitions before rest : List (String × String)} {linked : Linked}
variable {d : String × String}

/-- Each definition is linked after those before it, and what it adds stays. -/
theorem exists_defined (haccepted : link (before ++ d :: rest) registry = .ok linked) :
    ∃ l e part output names l' final,
      before.foldlM (Linker.define registry) .start = .ok l ∧ l.Orderly ∧
        Linker.Defined registry l d e part output names l' ∧ l'.Orderly ∧
        l'.Precedes final ∧ final.linked = linked := by
  obtain ⟨final, hlinked, heq⟩ := bind_eq_ok_iff.1 haccepted
  cases heq
  rw [List.foldlM_append] at hlinked
  obtain ⟨l, hfirst, hlinked⟩ := bind_eq_ok_iff.1 hlinked
  obtain ⟨l', hnext, hlinked⟩ := bind_eq_ok_iff.1 (List.foldlM_cons.symm.trans hlinked)
  obtain ⟨orderly, -, -⟩ := Linker.orderly_start.foldlM_define hfirst
  obtain ⟨e, part, output, names, hdefined⟩ := Linker.define_eq_ok_iff.1 hnext
  obtain ⟨-, hprecedes, -⟩ := (hdefined.orderly orderly).foldlM_define hlinked
  exact ⟨l, e, part, output, names, l', final, hfirst, orderly, hdefined, hdefined.orderly orderly,
    hprecedes, rfl⟩

/-- The definitions before some others are linked by themselves as they are among all. -/
theorem exists_precedes (haccepted : link (before ++ rest) registry = .ok linked) :
    ∃ l final : Linker, link before registry = .ok l.linked ∧ l.Precedes final ∧
      final.linked = linked := by
  obtain ⟨final, hlinked, heq⟩ := bind_eq_ok_iff.1 haccepted
  cases heq
  rw [List.foldlM_append] at hlinked
  obtain ⟨l, hfirst, hlinked⟩ := bind_eq_ok_iff.1 hlinked
  obtain ⟨orderly, -, -⟩ := Linker.orderly_start.foldlM_define hfirst
  exact ⟨l, final, bind_eq_ok_iff.2 ⟨l, hfirst, rfl⟩, (orderly.foldlM_define hlinked).2.1, rfl⟩

end ColumnFlow
