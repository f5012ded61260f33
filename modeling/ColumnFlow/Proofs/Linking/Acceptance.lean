import ColumnFlow.Proofs.Linking.Definitions
import ColumnFlow.Proofs.Validity

/-!
# Linking refuses nothing but definitions

The only definitions that cannot be linked are those that do not parse or compile by themselves.
All names are drawn from one supply, so that none is taken, and edges lead from new tasks to older
ones, which never lead back. This does not depend on what the variables are called: a variable that
has the name of a task gives rise to further edges, but these go the same way.
-/

namespace ColumnFlow

/-! ## Adding to a graph -/

namespace Graph

variable {g : Graph} {P : String → Prop}

/-- An edge from a newer task to an older one can be added, if older tasks lead to none but older
ones. -/
theorem exists_appendDependency {task extra : String}
    (hpasses : ∀ n, P n → ∀ d ∈ g.dependenciesOf n, P d) (hknown : task ∈ g.names)
    (hknown' : extra ∈ g.names) (hnewer : ¬ P task) (holder : P extra) :
    ∃ g', g.appendDependency task extra = .ok g' := by
  have hapart : g.dependsOn extra task = false := by
    refine decide_eq_false fun hreached => hnewer ?_
    exact reach_inside hpasses (List.forall_mem_singleton.2 holder) (List.forall_mem_nil _) _
      hreached
  have hother : task ≠ extra := fun hsame => hnewer (hsame ▸ holder)
  unfold appendDependency
  rw [contains_iff.2 hknown, contains_iff.2 hknown', hapart]
  simp [hother]

theorem exists_addEdges_of_older {edges : List (String × String)}
    (hpasses : ∀ n, P n → ∀ d ∈ g.dependenciesOf n, P d)
    (hnewer : ∀ e ∈ edges, e.1 ∈ g.names ∧ ¬ P e.1) (holder : ∀ e ∈ edges, e.2 ∈ g.names ∧ P e.2) :
    ∃ g', Linker.addEdges g edges = .ok g' := by
  induction edges generalizing g with
  | nil => exact ⟨g, rfl⟩
  | cons e es ih =>
    rw [List.forall_mem_cons] at hnewer holder
    obtain ⟨m, hfirst⟩ :=
      exists_appendDependency hpasses hnewer.1.1 holder.1.1 hnewer.1.2 holder.1.2
    obtain ⟨hnames, -, hkept, -⟩ := appendDependency_ok hfirst
    have hpasses' : ∀ n, P n → ∀ d ∈ m.dependenciesOf n, P d := by
      intro n hold
      have hother : n ≠ e.1 := fun hsame => hnewer.1.2 (hsame ▸ hold)
      rw [dependenciesOf, hkept n hother]
      exact hpasses n hold
    obtain ⟨g', hrest⟩ := ih hpasses' (hnames ▸ hnewer.2) (hnames ▸ holder.2)
    exact ⟨g', List.foldlM_cons.trans (bind_eq_ok_iff.2 ⟨m, hfirst, hrest⟩)⟩

theorem exists_add {name : String} {t : Task} (hfresh : name ∉ g.names)
    (hother : name ∉ t.dependencies) : ∃ g', g.add name t = .ok g' :=
  ⟨_, add_eq_ok_iff.2 ⟨hfresh, hother, rfl⟩⟩

end Graph

/-! ## Attaching a compiled definition -/

namespace Linker

variable {registry : Registry} {l : Linker} {e : Expr} {part : Graph} {names : NameSupply}
variable {text output : String} {d : String × String}

/-- The tasks of a compiled definition can be added and ordered after the commits they read, and
they lead to none but those that are there then. -/
theorem Orderly.exists_ordered (horderly : l.Orderly)
    (hcompiled : Compiled registry l.names text e part output names) :
    ∃ merged ordered, l.linked.graph.merge part = .ok merged ∧
      addEdges merged (l.readEdges part) = .ok ordered ∧
      ordered.names = l.linked.graph.names ++ part.names ∧
      ∀ n ∈ ordered.names, ∀ d ∈ ordered.dependenciesOf n, d ∈ ordered.names := by
  obtain ⟨-, -, hdrawn⟩ := hcompiled.drawn
  have hfresh : ∀ n ∈ part.names, n ∉ l.linked.graph.names :=
    fun n hmem hold => (horderly.drawn n hold).ne (hdrawn n hmem) rfl
  obtain ⟨merged, hmerge⟩ := Graph.exists_merge hfresh
  obtain ⟨hnames₁, -, hold₁, hnew₁⟩ := Graph.merge_ok hmerge
  -- the tasks that were there lead to none but themselves
  have hpasses : ∀ n, n ∈ l.linked.graph.names → ∀ d ∈ merged.dependenciesOf n,
      d ∈ l.linked.graph.names := by
    intro n hmem d hedge
    obtain ⟨t, htask, hinside⟩ := horderly.legal.closed hmem
    rw [Graph.dependenciesOf_eq (hold₁ n t htask)] at hedge
    exact hinside d hedge
  obtain ⟨ordered, hreads⟩ : ∃ ordered, addEdges merged (l.readEdges part) = .ok ordered := by
    refine Graph.exists_addEdges_of_older hpasses ?_ ?_
    · rintro ⟨n, c⟩ hedge
      obtain ⟨x, t, -, htask, -⟩ := mem_readEdges_iff.1 hedge
      have hmem := Graph.mem_names_of_get? htask
      exact ⟨hnames₁ ▸ List.mem_append_right _ hmem, hfresh n hmem⟩
    · rintro ⟨n, c⟩ hedge
      obtain ⟨x, t, hlatest, -, -⟩ := mem_readEdges_iff.1 hedge
      have hmem := horderly.latest_known hlatest
      exact ⟨hnames₁ ▸ List.mem_append_left _ hmem, hmem⟩
  obtain ⟨hnames₂, -, hkept₂, hgained₂⟩ := Graph.addEdges_ok hreads
  refine ⟨merged, ordered, hmerge, hreads, hnames₂.trans hnames₁, ?_⟩
  rw [hnames₂, hnames₁]
  refine List.forall_mem_append.2 ⟨fun n hold d hedge => ?_, fun n hmem d hedge => ?_⟩
  · rw [Graph.dependenciesOf, hkept₂ n ?_] at hedge
    · exact List.mem_append_left _ (hpasses n hold d hedge)
    · rintro ⟨m, c⟩ hedge' rfl
      obtain ⟨x, t, -, htask, -⟩ := mem_readEdges_iff.1 hedge'
      exact hfresh _ (Graph.mem_names_of_get? htask) hold
  · obtain ⟨t, htask, hinside⟩ := hcompiled.legal.closed hmem
    obtain ⟨after, htask', hmembers⟩ := hgained₂ n t (hnew₁ n t htask)
    rw [Graph.dependenciesOf_eq htask'] at hedge
    rcases Task.mem_dependencies_iff.1 hedge with href | hwaits
    · exact List.mem_append_right _ (hinside d (Task.refs_subset_dependencies href))
    · rcases (hmembers d).1 hwaits with hunordered | hedge'
      · exact List.mem_append_right _ (hinside d (Task.mem_dependencies_iff.2 (.inr hunordered)))
      · obtain ⟨x, t, hlatest, -, -⟩ := mem_readEdges_iff.1 hedge'
        exact List.mem_append_left _ (horderly.latest_known hlatest)

/-- A compiled definition can be attached. -/
theorem Orderly.exists_attach (horderly : l.Orderly)
    (hcompiled : Compiled registry l.names text e part output names) (target : String) :
    ∃ l', ({ l with names } : Linker).attach target part output = .ok l' := by
  obtain ⟨hgrows, hown, hdrawn⟩ := hcompiled.drawn
  obtain ⟨merged, ordered, hmerge, hreads, htogether, hpasses⟩ := horderly.exists_ordered hcompiled
  have hnew : ∀ n ∈ ordered.names, n ≠ commitName names target := by
    rw [htogether]
    refine List.forall_mem_append.2 ⟨fun n hold => ?_, fun n hmem => (hdrawn n hmem).ne_next⟩
    exact ((horderly.drawn n hold).mono_right hgrows).ne_next
  obtain ⟨committed, hadd⟩ : ∃ committed,
      ordered.add (commitName names target) (.commit target output) = .ok committed := by
    refine Graph.exists_add (fun hold => hnew _ hold rfl) fun hitself => ?_
    have hinside : output ∈ ordered.names := htogether ▸ List.mem_append_right _ hown
    exact hnew output hinside (List.mem_singleton.1 hitself).symm
  obtain ⟨hnames₃, hgets₃⟩ := Graph.tasks_add hadd
  have hearlier : ∀ n ∈ l.earlier target, n ∈ ordered.names := by
    intro n hmem
    rw [htogether]
    refine List.mem_append_left _ ?_
    rcases mem_earlier_iff.1 hmem with hreader | hlatest
    · obtain ⟨t, htask, -⟩ := Graph.mem_dependents_iff.1 hreader
      exact Graph.mem_names_of_get? htask
    · exact horderly.latest_known hlatest
  -- The commit is new, so that no earlier task leads to it and the edges close no cycle.
  obtain ⟨graph, hwrites⟩ : ∃ graph, addEdges committed
      ((l.earlier target).map fun task => (commitName names target, task)) = .ok graph := by
    refine Graph.exists_addEdges_of_older (P := (· ∈ ordered.names)) ?_ ?_ ?_
    · intro n hold
      rw [Graph.dependenciesOf, hgets₃, if_neg (hnew n hold)]
      exact hpasses n hold
    · refine List.forall_mem_map.2 fun n hmem => ⟨?_, fun hold => hnew _ hold rfl⟩
      rw [hnames₃]
      exact List.mem_append_right _ List.mem_cons_self
    · refine List.forall_mem_map.2 fun n hmem => ⟨?_, hearlier n hmem⟩
      rw [hnames₃]
      exact List.mem_append_left _ (hearlier n hmem)
  unfold attach
  exact ⟨_, bind_eq_ok_iff.2 ⟨merged, hmerge, bind_eq_ok_iff.2 ⟨ordered, hreads,
    bind_eq_ok_iff.2 ⟨committed, hadd, bind_eq_ok_iff.2 ⟨graph, hwrites, rfl⟩⟩⟩⟩⟩

/-! ## Definitions that are refused -/

/-- What is wrong with a definition by itself. -/
def definitionError? (registry : Registry) (d : String × String) : Option LinkError :=
  match Expr.parse d.2 with
  | .error cause => some (.parse d.1 cause)
  | .ok e =>
    match (e.buildWith .fresh registry).1 with
    | .error cause => some (.compile d.1 cause)
    | .ok _ => none

/-- The functions of a definition are looked up alike, whatever has been linked. -/
theorem definitionError?_of_parse (hparsed : Expr.parse d.2 = .ok e) :
    definitionError? registry d =
      (registry.missing? e.lookups).map fun f => .compile d.1 (.unknownFunction f) := by
  unfold definitionError?
  rw [hparsed]
  obtain ⟨names, -, hanswer⟩ := buildWith_answers e .fresh registry
  cases habsent : registry.missing? e.lookups with
  | none =>
    rw [habsent] at hanswer
    obtain ⟨g, o, hbuilt, -⟩ := hanswer
    dsimp only
    rw [hbuilt]
    rfl
  | some f =>
    rw [habsent] at hanswer
    dsimp only
    rw [hanswer]
    rfl

/-- What can be wrong is the text or a function that is not there. -/
theorem definitionError?_spec {error : LinkError}
    (hwrong : definitionError? registry d = some error) :
    (∃ cause, error = .parse d.1 cause) ∨ ∃ f, error = .compile d.1 (.unknownFunction f) := by
  cases hparsed : Expr.parse d.2 with
  | error cause =>
    unfold definitionError? at hwrong
    rw [hparsed] at hwrong
    cases hwrong
    exact .inl ⟨cause, rfl⟩
  | ok e =>
    rw [definitionError?_of_parse hparsed] at hwrong
    obtain ⟨f, -, heq⟩ := Option.map_eq_some_iff.1 hwrong
    exact .inr ⟨f, heq.symm⟩

/-- A definition with nothing wrong can be linked, and any other one is refused for it. -/
theorem Orderly.define_outcome (horderly : l.Orderly) (d : String × String) :
    match definitionError? registry d with
    | some error => l.define registry d = .error error
    | none => ∃ l', l.define registry d = .ok l' := by
  obtain ⟨target, text⟩ := d
  cases hparsed : Expr.parse text with
  | error cause =>
    have hrefused : definitionError? registry (target, text) = some (.parse target cause) := by
      unfold definitionError?
      rw [hparsed]
    rw [hrefused]
    unfold define
    dsimp only
    rw [hparsed]
    rfl
  | ok e =>
    rw [definitionError?_of_parse hparsed]
    obtain ⟨names, -, hanswer⟩ := buildWith_answers e l.names registry
    cases habsent : registry.missing? e.lookups with
    | none =>
      rw [habsent] at hanswer
      obtain ⟨part, output, hbuilt, -⟩ := hanswer
      obtain ⟨l', hattach⟩ := horderly.exists_attach ⟨hparsed, hbuilt⟩ target
      exact ⟨l', define_eq_ok_iff.2 ⟨e, part, output, names, ⟨hparsed, hbuilt⟩, hattach⟩⟩
    | some f =>
      rw [habsent] at hanswer
      unfold define
      dsimp only
      rw [hparsed]
      change ((e.buildWith l.names registry).1.mapError _ >>= _) = _
      rw [hanswer]
      rfl

/-- Definitions are linked one after the other up to the first with something wrong. -/
theorem Orderly.foldlM_outcome (horderly : l.Orderly) (definitions : List (String × String)) :
    match definitions.findSome? (definitionError? registry) with
    | some error => definitions.foldlM (define registry) l = .error error
    | none => ∃ l', definitions.foldlM (define registry) l = .ok l' := by
  induction definitions generalizing l with
  | nil => exact ⟨_, rfl⟩
  | cons d ds ih =>
    rw [List.findSome?_cons, List.foldlM_cons]
    have houtcome := @Orderly.define_outcome registry l horderly d
    cases hwrong : definitionError? registry d with
    | some error =>
      rw [hwrong] at houtcome
      dsimp only at houtcome ⊢
      rw [houtcome]
      rfl
    | none =>
      rw [hwrong] at houtcome
      obtain ⟨m, hfirst⟩ := houtcome
      obtain ⟨e, part, output, names, hdefined⟩ := define_eq_ok_iff.1 hfirst
      rw [hfirst]
      exact ih (hdefined.orderly horderly)

end Linker

/-! ## Linking -/

/-- What linking makes of definitions. -/
structure Linked.WellLinked (registry : Registry) (definitions : List (String × String))
    (linked : Linked) : Prop where
  /-- Tasks depend on tasks that were inserted before them. -/
  earlier : ∀ before n after, linked.graph.names = before ++ n :: after →
    ∀ d ∈ linked.graph.dependenciesOf n, d ∈ before
  valid : linked.graph.validate = .ok ()
  last : linked.graph.last? = linked.commitTasks.getLast?
  distinct : linked.commitTasks.Nodup
  targets : linked.commits.map Prod.fst = definitions.map Prod.fst
  /-- Each definition is compiled with the names that are left, and the task it comes down to is
  committed under its variable. -/
  commits : ∀ before d rest, definitions = before ++ d :: rest →
    ∃ l e part output names commit after,
      before.foldlM (Linker.define registry) .start = .ok l ∧
      Linker.Compiled registry l.names d.2 e part output names ∧
      (∀ n t, part.get? n = some t →
        ∃ after, linked.graph.get? n = some ⟨t.work, t.args, after⟩) ∧
      output ∈ part.names ∧ linked.commits[before.length]? = some (d.1, commit) ∧
      linked.graph.get? commit = some ⟨.commit d.1, [.ref output], after⟩
  /-- The first definitions by themselves give the beginning of the graph. -/
  prefixes : ∀ before rest, definitions = before ++ rest →
    ∃ first, link before registry = .ok first ∧
      first.graph.tasks.entries <+: linked.graph.tasks.entries ∧
      first.commits <+: linked.commits

theorem wellLinked_of_ok {registry : Registry} {definitions : List (String × String)}
    {linked : Linked} (haccepted : link definitions registry = .ok linked) :
    linked.WellLinked registry definitions := by
  obtain ⟨final, hfolded, heq⟩ := bind_eq_ok_iff.1 haccepted
  cases heq
  obtain ⟨horderly, -, htargets⟩ := Linker.orderly_start.foldlM_define hfolded
  refine ⟨?_, horderly.legal.validate_eq_ok, horderly.last, horderly.distinct, htargets, ?_, ?_⟩
  · intro before n after hsplit d hedge
    have hlegal := horderly.legal
    rw [hsplit] at hlegal
    obtain ⟨-, -, t, htask, hinside⟩ := Graph.legal_snoc.1 hlegal.split
    rw [Graph.dependenciesOf_eq htask] at hedge
    exact hinside d hedge
  · rintro before d rest rfl
    obtain ⟨l, e, part, output, names, l', final', hfirst, -, hdefined, -, hprecedes, hsame⟩ :=
      exists_defined haccepted
    have htargets' : l.linked.commits.map Prod.fst = before.map Prod.fst :=
      (Linker.orderly_start.foldlM_define hfirst).2.2
    obtain ⟨after, hcommit, -⟩ := hdefined.attached.commit_task
    refine ⟨l, e, part, output, names, _, after, hfirst, hdefined.compiled, ?_,
      hdefined.compiled.drawn.2.1, ?_, hsame ▸ hprecedes.get? hcommit⟩
    · intro n t htask
      obtain ⟨after, htask', -⟩ := hdefined.attached.new n t htask
      exact ⟨after, hsame ▸ hprecedes.get? htask'⟩
    · have hlength : l.linked.commits.length = before.length := by
        simpa using congrArg List.length htargets'
      obtain ⟨more, hall⟩ := hprecedes.commits
      rw [hsame] at hall
      rw [← hall, hdefined.attached.commits, ← hlength, List.append_assoc]
      simp
  · rintro before rest rfl
    obtain ⟨l, final', hfirst, hprecedes, hsame⟩ := exists_precedes haccepted
    exact ⟨l.linked, hfirst, hsame ▸ hprecedes.entries, hsame ▸ hprecedes.commits⟩

/-- One more definition that can be compiled can be linked. -/
theorem exists_link_snoc {registry : Registry} {before : List (String × String)}
    {d : String × String} {l : Linker} {e : Expr} {part : Graph} {output : String}
    {names : NameSupply} (hfirst : before.foldlM (Linker.define registry) .start = .ok l)
    (hcompiled : Linker.Compiled registry l.names d.2 e part output names) :
    ∃ l', link (before ++ [d]) registry = .ok l'.linked ∧
      Linker.Defined registry l d e part output names l' := by
  obtain ⟨horderly, -, -⟩ := Linker.orderly_start.foldlM_define hfirst
  obtain ⟨l', hattach⟩ := horderly.exists_attach hcompiled d.1
  have hdefined : Linker.Defined registry l d e part output names l' := ⟨hcompiled, hattach⟩
  have hnext : l.define registry d = .ok l' :=
    Linker.define_eq_ok_iff.2 ⟨e, part, output, names, hdefined⟩
  refine ⟨l', bind_eq_ok_iff.2 ⟨l', ?_, rfl⟩, hdefined⟩
  rw [List.foldlM_append, hfirst]
  exact List.foldlM_cons.trans (bind_eq_ok_iff.2 ⟨l', hnext, rfl⟩)

/-- Whatever the variables are called, linking fails only with what is wrong with the first
definition that does not parse or compile by itself, and otherwise gives a valid graph. -/
theorem link_valid_or_first_error (definitions : List (String × String)) (registry : Registry) :
    (match definitions.findSome? (Linker.definitionError? registry) with
      | some error => link definitions registry = .error error
      | none => ∃ linked, link definitions registry = .ok linked ∧
          linked.WellLinked registry definitions) ∧
      (∀ cause, link definitions registry ≠ .error (.graph cause)) ∧
      ∀ x cause, link definitions registry ≠ .error (.compile x (.graph cause)) := by
  -- Definitions that are right by themselves are always linked: nothing but the first wrong one
  -- stops the fold.
  have houtcome := @Linker.Orderly.foldlM_outcome registry _ Linker.orderly_start definitions
  cases hwrong : definitions.findSome? (Linker.definitionError? registry) with
  | none =>
    rw [hwrong] at houtcome
    obtain ⟨final, hfolded⟩ := houtcome
    have haccepted : link definitions registry = .ok final.linked :=
      bind_eq_ok_iff.2 ⟨final, hfolded, rfl⟩
    refine ⟨⟨final.linked, haccepted, wellLinked_of_ok haccepted⟩, ?_, ?_⟩
    · rw [haccepted]
      exact fun _ => nofun
    · rw [haccepted]
      exact fun _ _ => nofun
  | some error =>
    rw [hwrong] at houtcome
    have hrefused : link definitions registry = .error error := by
      unfold link
      dsimp only at houtcome
      rw [houtcome]
      rfl
    obtain ⟨d, -, hown⟩ := List.exists_of_findSome?_eq_some hwrong
    have hplain := Linker.definitionError?_spec hown
    refine ⟨hrefused, ?_, ?_⟩
    · rintro cause hsame
      cases hrefused.symm.trans hsame
      obtain ⟨cause, heq⟩ | ⟨f, heq⟩ := hplain <;> cases heq
    · rintro x cause hsame
      cases hrefused.symm.trans hsame
      obtain ⟨cause, heq⟩ | ⟨f, heq⟩ := hplain <;> cases heq

end ColumnFlow
