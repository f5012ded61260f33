import ColumnFlow.Proofs.Emission
import ColumnFlow.Proofs.Engine

/-!
# Compilation preserves meaning

The tasks that an expression compiles to can be run in the order in which they are added, and
the run succeeds exactly if the interpretation does, with the same value. All of them lead to
the output task, so that an engine that is asked for it runs them all.
-/

namespace ColumnFlow

variable {registry : Registry} {parts : List Part} {args : List Arg}
variable {code : List (String × Task)} {g : Graph} {done : List String}

/-! ## The tasks -/

/-- The tasks that compilation emits. -/
inductive Emitted : Task → Prop where
  | constant {value : Literal} : Emitted (.constant value)
  | eval {e : Expr} : e.isPure → e.Written → Emitted (.eval e.render e.symbols)
  | call {f : Function} {args : List Arg} : Arg.columnsAll args = [] → Emitted (.call f args)

/-- The arguments stand for values of the emitted tasks, and for no variables. -/
theorem Emits.arguments (h : Emits registry parts args code) :
    (∀ r ∈ Arg.refsAll args, r ∈ code.map Prod.fst) ∧ Arg.columnsAll args = [] := by
  induction h with
  | none | omitted => simp [Arg.refsAll, Arg.columnsAll, Arg.refs, Arg.columns]
  | more _ _ ih ih' =>
    simp only [Arg.refsAll, Arg.columnsAll, List.append_nil] at ih ih' ⊢
    refine ⟨fun r hmem => ?_, by rw [ih.2, ih'.2]; rfl⟩
    rw [List.map_append, List.mem_append]
    exact (List.mem_append.1 hmem).imp (ih.1 r) (ih'.1 r)
  | constant | eval | call => simp [Arg.refsAll, Arg.columnsAll, Arg.refs, Arg.columns]
  | index _ ih | given _ ih => exact ih
  | slice _ ih =>
    simpa [Arg.refsAll, Arg.columnsAll, Arg.refs, Arg.columns] using ih

theorem Emits.emitted (h : Emits registry parts args code) (hwritten : ∀ p ∈ parts, p.Written) :
    ∀ entry ∈ code, Emitted entry.2 := by
  induction h with
  | none | omitted => simp
  | more _ _ ih ih' =>
    rw [List.forall_mem_cons] at hwritten
    exact List.forall_mem_append.2 ⟨ih (List.forall_mem_singleton.2 hwritten.1), ih' hwritten.2⟩
  | constant => exact List.forall_mem_singleton.2 .constant
  | eval hpure _ =>
    exact List.forall_mem_singleton.2 (.eval hpure (hwritten _ List.mem_cons_self))
  | call hcalls _ hparts ih =>
    refine List.forall_mem_append.2 ⟨?_, List.forall_mem_singleton.2 (.call hparts.arguments.2)⟩
    exact ih (written_of_operation (hwritten _ List.mem_cons_self) hcalls)
  | index _ ih =>
    exact ih (List.forall_mem_singleton.2 (hwritten (.subscript _) List.mem_cons_self))
  | given _ ih => exact ih (List.forall_mem_singleton.2 (hwritten (.bound _) List.mem_cons_self))
  | slice _ ih =>
    obtain ⟨hlower, hupper, hstep⟩ := hwritten _ List.mem_cons_self
    refine ih (List.forall_mem_cons.2 ⟨hlower, List.forall_mem_cons.2 ⟨hupper, ?_⟩⟩)
    exact List.forall_mem_singleton.2 hstep

/-- What compilation leaves to linking: no task is ordered or bound to a variable yet, an eval task
refers to no task, and the others read no variable. -/
structure Task.Plain (t : Task) : Prop where
  unordered : t.after = []
  unbound : t.committed? = none
  refs : ∀ expression, t.work = .eval expression → t.refs = []
  columns : (∀ expression, t.work ≠ .eval expression) → t.columns = []

theorem Emits.plain (h : Emits registry parts args code) : ∀ entry ∈ code, entry.2.Plain := by
  induction h with
  | none | omitted => exact List.forall_mem_nil _
  | more _ _ ih ih' => exact List.forall_mem_append.2 ⟨ih, ih'⟩
  | constant => exact List.forall_mem_singleton.2 ⟨rfl, rfl, nofun, fun _ => rfl⟩
  | eval =>
    refine List.forall_mem_singleton.2 ⟨rfl, rfl, fun _ _ => Arg.refsAll_map _, fun hnoText => ?_⟩
    exact absurd rfl (hnoText _)
  | call _ _ hparts ih =>
    refine List.forall_mem_append.2 ⟨ih, List.forall_mem_singleton.2 ⟨rfl, rfl, nofun, fun _ => ?_⟩⟩
    exact hparts.arguments.2
  | index _ ih | given _ ih | slice _ ih => exact ih

/-! ## The tasks in a graph -/

/-- The graph holds the tasks, which may come after some in `done` as well. -/
def Graph.Holds (g : Graph) (done : List String) (code : List (String × Task)) : Prop :=
  ∀ entry ∈ code, ∃ after,
    g.get? entry.1 = some ⟨entry.2.work, entry.2.args, after⟩ ∧ ∀ a ∈ after, a ∈ done

theorem Graph.holds_append {first rest : List (String × Task)} :
    g.Holds done (first ++ rest) ↔ g.Holds done first ∧ g.Holds done rest :=
  List.forall_mem_append

theorem Graph.holds_singleton {name : String} {t : Task} :
    g.Holds done [(name, t)] ↔
      ∃ after, g.get? name = some ⟨t.work, t.args, after⟩ ∧ ∀ a ∈ after, a ∈ done :=
  List.forall_mem_singleton

theorem Graph.Holds.legalAfter {old : List String} {name : String} {t : Task}
    (hholds : g.Holds old [(name, t)]) (hfresh : name ∉ done) (hrefs : ∀ r ∈ t.refs, r ∈ done)
    (hinside : ∀ n ∈ old, n ∈ done) : g.LegalAfter done [name] := by
  obtain ⟨after, hknown, hordered⟩ := Graph.holds_singleton.1 hholds
  refine ⟨hfresh, ⟨_, hknown, fun d hneed => ?_⟩, trivial⟩
  rcases Task.mem_dependencies_iff.1 hneed with href | hbehind
  · exact hrefs d href
  · exact hinside d (hordered d hbehind)

/-- Emitted tasks can be run in the order in which they were added. -/
theorem Emits.legalAfter {old : List String} (h : Emits registry parts args code)
    (hholds : g.Holds old code) (hnodup : (code.map Prod.fst).Nodup)
    (hfresh : ∀ n ∈ code.map Prod.fst, n ∉ done) (hinside : ∀ n ∈ old, n ∈ done) :
    g.LegalAfter done (code.map Prod.fst) := by
  -- Induction on what was emitted: each part comes behind the parts before it, and a call behind
  -- its own parts.
  induction h generalizing done with
  | none | omitted => trivial
  | more _ _ ih ih' =>
    rw [List.map_append] at hnodup hfresh ⊢
    rw [List.forall_mem_append] at hfresh
    obtain ⟨hnodup, hnodup', hapart⟩ := List.nodup_append.1 hnodup
    obtain ⟨hholds, hholds'⟩ := Graph.holds_append.1 hholds
    refine Graph.legalAfter_append.2 ⟨ih hholds hnodup hfresh.1 hinside, ?_⟩
    refine ih' hholds' hnodup' ?_ fun n hmem => List.mem_append_left _ (hinside n hmem)
    intro n hmem hreported
    rcases List.mem_append.1 hreported with hearly | hown
    · exact hfresh.2 n hmem hearly
    · exact hapart n hown n hmem rfl
  | constant =>
    exact hholds.legalAfter (hfresh _ List.mem_cons_self) (fun r hmem => by cases hmem) hinside
  | eval =>
    refine hholds.legalAfter (hfresh _ List.mem_cons_self) ?_ hinside
    intro r hmem
    rw [Task.eval, Task.of, Task.refs, Arg.refsAll_map] at hmem
    cases hmem
  | call _ _ hparts ih =>
    rw [List.map_append] at hnodup hfresh ⊢
    rw [List.forall_mem_append] at hfresh
    obtain ⟨hnodup, _, hapart⟩ := List.nodup_append.1 hnodup
    obtain ⟨hholds, hholds'⟩ := Graph.holds_append.1 hholds
    refine Graph.legalAfter_append.2 ⟨ih hholds hnodup hfresh.1 hinside, ?_⟩
    refine hholds'.legalAfter ?_ ?_ fun n hmem => List.mem_append_left _ (hinside n hmem)
    · intro hreported
      rcases List.mem_append.1 hreported with hearly | hown
      · exact hfresh.2 _ List.mem_cons_self hearly
      · exact hapart _ hown _ List.mem_cons_self rfl
    · exact fun r hmem => List.mem_append_right _ (hparts.arguments.1 r hmem)
  | index _ ih | given _ ih | slice _ ih => exact ih hholds hnodup hfresh hinside

/-- Every emitted task is an argument or leads to one. -/
theorem Emits.leads {old : List String} (h : Emits registry parts args code)
    (hholds : g.Holds old code) :
    ∀ n ∈ code.map Prod.fst, n ∈ Arg.refsAll args ∨ ∃ r ∈ Arg.refsAll args, g.Before n r := by
  -- Induction on what was emitted: every task leads to the arguments under which the values are
  -- found.
  induction h with
  | none | omitted => simp
  | @more _ _ a as _ _ _ _ ih ih' =>
    obtain ⟨hholds, hholds'⟩ := Graph.holds_append.1 hholds
    rw [List.map_append, List.forall_mem_append]
    have hleft {r : String} (hmem : r ∈ Arg.refsAll [a]) : r ∈ Arg.refsAll (a :: as) := by
      rw [Arg.refsAll_singleton] at hmem
      exact List.mem_append_left _ hmem
    have hright {r : String} (hmem : r ∈ Arg.refsAll as) : r ∈ Arg.refsAll (a :: as) :=
      List.mem_append_right _ hmem
    refine ⟨fun n hmem => ?_, fun n hmem => ?_⟩
    · exact (ih hholds n hmem).imp hleft fun ⟨r, harg, hbefore⟩ => ⟨r, hleft harg, hbefore⟩
    · exact (ih' hholds' n hmem).imp hright fun ⟨r, harg, hbefore⟩ => ⟨r, hright harg, hbefore⟩
  | constant | eval => exact fun n hmem => .inl hmem
  | @call name _ _ _ _ args _ _ _ _ ih =>
    obtain ⟨hholds, hholds'⟩ := Graph.holds_append.1 hholds
    obtain ⟨after, hknown, _⟩ := Graph.holds_singleton.1 hholds'
    have hedge {r : String} (harg : r ∈ Arg.refsAll args) : r ∈ g.dependenciesOf name := by
      rw [Graph.dependenciesOf_eq hknown]
      exact Task.refs_subset_dependencies harg
    rw [List.map_append, List.forall_mem_append]
    refine ⟨fun n hmem => .inr ⟨name, List.mem_cons_self, ?_⟩, fun n hmem => .inl hmem⟩
    rcases ih hholds n hmem with harg | ⟨r, harg, hbefore⟩
    · exact .direct (hedge harg)
    · exact .through hbefore (hedge harg)
  | index _ ih | given _ ih => exact ih hholds
  | slice _ ih =>
    rw [Arg.refsAll_singleton, Arg.refs]
    exact ih hholds

/-! ## Runs -/

variable {evaluator : Evaluator} {s s' : Store} {vs : List Value}

theorem Graph.Holds.execute_eq_ok_iff {name : String} {t : Task} (hholds : g.Holds done [(name, t)])
    (hbinds : t.committed? = none) :
    g.execute evaluator s [name] = .ok s' ↔
      ∃ v, t.value evaluator s.results.get? s.env = .ok v ∧
        s' = ⟨s.results.insert name v, s.env⟩ := by
  obtain ⟨after, hknown, _⟩ := Graph.holds_singleton.1 hholds
  have hbind (v : Value) (env : Environment) : Task.bind ⟨t.work, t.args, after⟩ v env = env := by
    unfold Task.bind
    rw [show Task.committed? ⟨t.work, t.args, after⟩ = none from hbinds]
  rw [Graph.execute_cons_eq_ok_iff]
  constructor
  · rintro ⟨m, hran, hrest⟩
    obtain ⟨t', v, hknown', hvalue, rfl⟩ := Graph.runTask_eq_ok_iff.1 hran
    cases hknown.symm.trans hknown'
    cases hrest
    exact ⟨v, hvalue, by rw [hbind]⟩
  · rintro ⟨v, hvalue, rfl⟩
    refine ⟨_, Graph.runTask_eq_ok_iff.2 ⟨_, v, hknown, hvalue, rfl⟩, ?_⟩
    rw [hbind]
    rfl

theorem resolveAll_insert {name : String} {v : Value} {env : Environment} {results : Table Value} :
    Arg.resolveAll env (results.insert name v).get? [.ref name] = .ok [v] := by
  rw [Arg.resolveAll_ref_eq_ok_iff, Table.get?_insert, if_pos rfl]

/-- Arguments keep their values while other tasks run. -/
theorem Emits.resolveAll_of_execute {order : List String} (h : Emits registry parts args code)
    (hran : g.execute evaluator s order = .ok s') (hsame : s'.env = s.env)
    (hapart : ∀ n ∈ code.map Prod.fst, n ∉ order) :
    Arg.resolveAll s'.env s'.results.get? args = Arg.resolveAll s.env s.results.get? args := by
  refine Arg.resolveAll_congr args (fun r hmem => ?_) fun c _ => by rw [hsame]
  exact Graph.results_of_not_mem hran (hapart r (h.arguments.1 r hmem))

/-- If the tasks run, the parts have values, which are those of the arguments. -/
theorem Emits.sound (h : Emits registry parts args code) (hwritten : ∀ p ∈ parts, p.Written)
    (hnodup : (code.map Prod.fst).Nodup) (hholds : g.Holds done code)
    (hran : g.execute .onePass s (code.map Prod.fst) = .ok s') :
    s'.env = s.env ∧ ∃ vs, Part.interpretAll registry s.env parts = .ok vs ∧
      Arg.resolveAll s'.env s'.results.get? args = .ok vs := by
  -- Induction on what was emitted. The run is cut where the tasks of one part end, and later parts
  -- leave the results of earlier ones alone.
  induction h generalizing s s' with
  | none =>
    cases hran
    exact ⟨rfl, [], rfl, rfl⟩
  | more hhead _ ih ih' =>
    rw [List.forall_mem_cons] at hwritten
    rw [List.map_append] at hnodup hran
    obtain ⟨hnodup, hnodup', hapart⟩ := List.nodup_append.1 hnodup
    obtain ⟨hholds, hholds'⟩ := Graph.holds_append.1 hholds
    obtain ⟨m, hfirst, hrest⟩ := Graph.execute_append_eq_ok_iff.1 hran
    obtain ⟨hsame, us, hsingle, hresolved⟩ :=
      ih (List.forall_mem_singleton.2 hwritten.1) hnodup hholds hfirst
    obtain ⟨hsame', ws, hvalues, hresolved'⟩ := ih' hwritten.2 hnodup' hholds' hrest
    obtain ⟨v, hvalue, rfl⟩ := Part.interpretAll_singleton_eq_ok_iff.1 hsingle
    rw [hsame] at hvalues
    rw [← hhead.resolveAll_of_execute hrest hsame' fun n hmem hmem' => hapart n hmem n hmem' rfl]
      at hresolved
    refine ⟨hsame'.trans hsame, v :: ws, ?_, ?_⟩
    · exact Part.interpretAll_cons_eq_ok_iff.2 ⟨v, ws, hvalue, hvalues, rfl⟩
    · exact Arg.resolveAll_append.2 ⟨[v], ws, hresolved, hresolved', rfl⟩
  | constant =>
    obtain ⟨v, hvalue, rfl⟩ := (hholds.execute_eq_ok_iff rfl).1 hran
    cases hvalue
    exact ⟨rfl, _, rfl, resolveAll_insert⟩
  | @eval name e hpure hcompound =>
    obtain ⟨v, hvalue, rfl⟩ := (hholds.execute_eq_ok_iff rfl).1 hran
    refine ⟨rfl, [v], Part.interpretAll_singleton_eq_ok_iff.2 ⟨v, ?_, rfl⟩, resolveAll_insert⟩
    rw [Part.interpret, interpret_of_pure hpure hcompound]
    exact mapError_eq_ok_iff.2 ((Task.value_onePass hpure (hwritten _ List.mem_cons_self)).1 hvalue)
  | call hcalls hfound _ ih =>
    rw [List.map_append] at hnodup hran
    obtain ⟨hnodup, _, _⟩ := List.nodup_append.1 hnodup
    obtain ⟨hholds, hholds'⟩ := Graph.holds_append.1 hholds
    obtain ⟨m, hfirst, hlast⟩ := Graph.execute_append_eq_ok_iff.1 hran
    have hwritten := written_of_operation (hwritten _ List.mem_cons_self) hcalls
    obtain ⟨hsame, vs, hvalues, hresolved⟩ := ih hwritten hnodup hholds hfirst
    obtain ⟨v, hvalue, rfl⟩ := (hholds'.execute_eq_ok_iff rfl).1 hlast
    refine ⟨hsame, [v], Part.interpretAll_singleton_eq_ok_iff.2 ⟨v, ?_, rfl⟩, resolveAll_insert⟩
    refine (interpret_eq_ok_iff hcalls hfound).2 ⟨vs, hvalues, ?_⟩
    rwa [Task.call, Task.of, Task.value_call, hresolved] at hvalue
  | index _ ih =>
    have hposition := hwritten (.subscript _) List.mem_cons_self
    rw [Part.interpretAll, Part.interpret_index]
    exact ih (List.forall_mem_singleton.2 hposition) hnodup hholds hran
  | slice _ ih =>
    obtain ⟨hlower, hupper, hstep⟩ := hwritten _ List.mem_cons_self
    obtain ⟨hsame, vs, hvalues, hresolved⟩ := ih (List.forall_mem_cons.2 ⟨hlower,
      List.forall_mem_cons.2 ⟨hupper, List.forall_mem_singleton.2 hstep⟩⟩) hnodup hholds hran
    refine ⟨hsame, [.tuple vs], Part.interpretAll_singleton_eq_ok_iff.2 ⟨_, ?_, rfl⟩, ?_⟩
    · rw [Part.interpret_slice, hvalues]
      rfl
    · rw [Arg.resolveAll, Arg.resolve, hresolved]
      rfl
  | omitted =>
    cases hran
    exact ⟨rfl, [.nothing], rfl, rfl⟩
  | given _ ih =>
    have hpart := hwritten (.bound _) List.mem_cons_self
    rw [Part.interpretAll, Part.interpret_given]
    exact ih (List.forall_mem_singleton.2 hpart) hnodup hholds hran

/-- If the parts have values, the tasks run. -/
theorem Emits.complete (h : Emits registry parts args code) (hwritten : ∀ p ∈ parts, p.Written)
    (hnodup : (code.map Prod.fst).Nodup) (hholds : g.Holds done code)
    (hvalues : Part.interpretAll registry s.env parts = .ok vs) :
    ∃ s', g.execute .onePass s (code.map Prod.fst) = .ok s' := by
  -- The same cuts as for soundness, which says in what state the later parts are run.
  induction h generalizing s vs with
  | none | omitted => exact ⟨s, rfl⟩
  | more hhead _ ih ih' =>
    rw [List.forall_mem_cons] at hwritten
    rw [List.map_append] at hnodup ⊢
    obtain ⟨hnodup, hnodup', hapart⟩ := List.nodup_append.1 hnodup
    obtain ⟨hholds, hholds'⟩ := Graph.holds_append.1 hholds
    obtain ⟨v, ws, hvalue, hfurther, rfl⟩ := Part.interpretAll_cons_eq_ok_iff.1 hvalues
    have hwritten' := List.forall_mem_singleton.2 hwritten.1
    obtain ⟨m, hfirst⟩ := ih hwritten' hnodup hholds
      (Part.interpretAll_singleton_eq_ok_iff.2 ⟨v, hvalue, rfl⟩)
    obtain ⟨hsame, _⟩ := hhead.sound hwritten' hnodup hholds hfirst
    rw [← hsame] at hfurther
    obtain ⟨s', hrest⟩ := ih' hwritten.2 hnodup' hholds' hfurther
    exact ⟨s', Graph.execute_append_eq_ok_iff.2 ⟨m, hfirst, hrest⟩⟩
  | constant => exact ⟨_, (hholds.execute_eq_ok_iff rfl).2 ⟨_, rfl, rfl⟩⟩
  | @eval name e hpure hcompound =>
    obtain ⟨v, hvalue, rfl⟩ := Part.interpretAll_singleton_eq_ok_iff.1 hvalues
    rw [Part.interpret, interpret_of_pure hpure hcompound] at hvalue
    have hvalue := mapError_eq_ok_iff.1 hvalue
    refine ⟨_, (hholds.execute_eq_ok_iff rfl).2 ⟨v, ?_, rfl⟩⟩
    exact (Task.value_onePass hpure (hwritten _ List.mem_cons_self)).2 hvalue
  | @call name _ _ f _ args _ hcalls hfound hinner ih =>
    rw [List.map_append] at hnodup ⊢
    obtain ⟨hnodup, _, _⟩ := List.nodup_append.1 hnodup
    obtain ⟨hholds, hholds'⟩ := Graph.holds_append.1 hholds
    have hwritten := written_of_operation (hwritten _ List.mem_cons_self) hcalls
    obtain ⟨v, hvalue, rfl⟩ := Part.interpretAll_singleton_eq_ok_iff.1 hvalues
    obtain ⟨vs, hvalues, hvalue⟩ := (interpret_eq_ok_iff hcalls hfound).1 hvalue
    obtain ⟨m, hfirst⟩ := ih hwritten hnodup hholds hvalues
    obtain ⟨_, vs', hvalues', hresolved⟩ := hinner.sound hwritten hnodup hholds hfirst
    cases hvalues.symm.trans hvalues'
    have happlied : (Task.call f args).value .onePass m.results.get? m.env = .ok v := by
      rwa [Task.call, Task.of, Task.value_call, hresolved]
    have hlast := (hholds'.execute_eq_ok_iff rfl).2 ⟨v, happlied, rfl⟩
    exact ⟨_, Graph.execute_append_eq_ok_iff.2 ⟨m, hfirst, hlast⟩⟩
  | index _ ih =>
    have hposition := hwritten (.subscript _) List.mem_cons_self
    rw [Part.interpretAll, Part.interpret_index] at hvalues
    exact ih (List.forall_mem_singleton.2 hposition) hnodup hholds hvalues
  | slice _ ih =>
    obtain ⟨hlower, hupper, hstep⟩ := hwritten _ List.mem_cons_self
    obtain ⟨v, hvalue, rfl⟩ := Part.interpretAll_singleton_eq_ok_iff.1 hvalues
    rw [Part.interpret_slice] at hvalue
    obtain ⟨vs, hvalues, _⟩ := map_eq_ok_iff.1 hvalue
    exact ih (List.forall_mem_cons.2 ⟨hlower,
      List.forall_mem_cons.2 ⟨hupper, List.forall_mem_singleton.2 hstep⟩⟩) hnodup hholds hvalues
  | given _ ih =>
    have hpart := hwritten (.bound _) List.mem_cons_self
    rw [Part.interpretAll, Part.interpret_given] at hvalues
    exact ih (List.forall_mem_singleton.2 hpart) hnodup hholds hvalues

/-! ## Compiled graphs -/

theorem Emitted.committed? {t : Task} (h : Emitted t) : t.committed? = none := by
  cases h with
  | constant | eval | call => rfl

/-- Emitted tasks depend on nothing but their references and variables. -/
theorem Emitted.framed {t : Task} {after : List String} (h : Emitted t) :
    Task.Framed .onePass ⟨t.work, t.args, after⟩ := by
  cases h with
  | constant => exact Task.framed_of_noText fun _ htext => by cases htext
  | eval hpure hwritten => exact Task.framed_onePass hpure hwritten
  | call => exact Task.framed_of_noText fun _ htext => by cases htext

variable {e : Expr} {output : String} {env : Environment} {v : Value}

theorem holds_entries (hplain : ∀ entry ∈ g.tasks.entries, entry.2.Plain) :
    g.Holds [] g.tasks.entries := by
  intro entry hmem
  refine ⟨[], ?_, by simp⟩
  rw [← (hplain entry hmem).unordered]
  exact (Table.get?_eq_some_iff _ _ _).2 hmem

/-- The tasks of a compiled graph were added after everything they depend on. -/
theorem legal_of_emits (hemits : Emits registry parts args g.tasks.entries) : g.Legal g.names :=
  hemits.legalAfter (holds_entries hemits.plain) g.tasks.nodup (by simp) (by simp)

/-- In a compiled graph the order of the tasks is settled as far as it matters. -/
theorem confluent_of_emits (hemits : Emits registry [.expr e] [.ref output] g.tasks.entries)
    (hwritten : e.Written) : g.Confluent .onePass := by
  have hall := hemits.emitted (List.forall_mem_singleton.2 hwritten)
  have hknown {n : String} {t : Task} (htask : g.get? n = some t) : Emitted t :=
    hall (n, t) ((Table.get?_eq_some_iff _ _ _).1 htask)
  refine ⟨legal_of_emits hemits, ?_, ?_⟩
  · intro k n x hcommits
    obtain ⟨t, htask, hbinds⟩ := Option.bind_eq_some_iff.1 hcommits
    rw [(hknown htask).committed?] at hbinds
    cases hbinds
  · exact fun n t htask => (hknown htask).framed

/-- A run in insertion order gives the output the value of the interpretation. -/
theorem execute_names_iff (hemits : Emits registry [.expr e] [.ref output] g.tasks.entries)
    (hwritten : e.Written) :
    (∃ s, g.execute .onePass (.start env) g.names = .ok s ∧ s.results.get? output = some v) ↔
      e.interpret registry env = .ok v := by
  have hwritten' : ∀ p ∈ [Part.expr e], p.Written := List.forall_mem_singleton.2 hwritten
  have hholds := holds_entries hemits.plain
  constructor
  · rintro ⟨s, hran, hresult⟩
    obtain ⟨_, vs, hvalues, hresolved⟩ := hemits.sound hwritten' g.tasks.nodup hholds hran
    cases (Arg.resolveAll_ref_eq_ok_iff.2 hresult).symm.trans hresolved
    obtain ⟨_, hvalue, ⟨⟩⟩ := Part.interpretAll_singleton_eq_ok_iff.1 hvalues
    exact hvalue
  · intro hvalue
    have hvalues : Part.interpretAll registry env [.expr e] = .ok [v] :=
      Part.interpretAll_singleton_eq_ok_iff.2 ⟨v, hvalue, rfl⟩
    obtain ⟨s, hran⟩ := hemits.complete (s := .start env) hwritten' g.tasks.nodup hholds hvalues
    obtain ⟨_, vs, hvalues', hresolved⟩ := hemits.sound hwritten' g.tasks.nodup hholds hran
    cases hvalues.symm.trans hvalues'
    exact ⟨s, hran, Arg.resolveAll_ref_eq_ok_iff.1 hresolved⟩

/-- A legal list with the output in it has all tasks of the graph. -/
theorem mem_of_output_mem {order : List String}
    (hemits : Emits registry [.expr e] [.ref output] g.tasks.entries)
    (hlegal : g.Legal order) (hmem : output ∈ order) : ∀ n ∈ g.names, n ∈ order := by
  intro n hinside
  rcases hemits.leads (holds_entries hemits.plain) n hinside with hsame | ⟨r, hsame, hbefore⟩
  · cases List.mem_singleton.1 hsame
    exact hmem
  · cases List.mem_singleton.1 hsame
    exact hlegal.mem_of_mem hmem hbefore

/-- Every legal run of the output task gives it the value of the interpretation. -/
theorem execute_iff {order : List String}
    (hemits : Emits registry [.expr e] [.ref output] g.tasks.entries) (hwritten : e.Written)
    (hlegal : g.Legal order) (hmem : output ∈ order) :
    (∃ s, g.execute .onePass (.start env) order = .ok s ∧ s.results.get? output = some v) ↔
      e.interpret registry env = .ok v := by
  have hconfluent := confluent_of_emits hemits hwritten
  have hall := mem_of_output_mem hemits hlegal hmem
  have hknown : output ∈ g.names := hemits.arguments.1 output List.mem_cons_self
  rw [← execute_names_iff hemits hwritten]
  constructor
  · rintro ⟨s, hran, hresult⟩
    obtain ⟨s', hran', hsame⟩ := hconfluent.execute_of_execute hlegal hconfluent.legal hall hran
    exact ⟨s', hran', (hsame output hknown).trans hresult⟩
  · rintro ⟨s, hran, hresult⟩
    have hinside : ∀ n ∈ order, n ∈ g.names := fun n hmem => hlegal.mem_names hmem
    obtain ⟨s', hran', hsame⟩ := hconfluent.execute_of_execute hconfluent.legal hlegal hinside hran
    exact ⟨s', hran', (hsame output hmem).trans hresult⟩

/-- An engine gives the output task the value of the interpretation. -/
theorem get_iff (hemits : Emits registry [.expr e] [.ref output] g.tasks.entries)
    (hwritten : e.Written) (reports : ReportOrder) (builtins : Bool) :
    (Engine.get ⟨.onePass, reports, builtins⟩ g output env).1 = .ok v ↔
      e.interpret registry env = .ok v := by
  have hconfluent := confluent_of_emits hemits hwritten
  have hknown : ∀ t ∈ [output], t ∈ g.names := hemits.arguments.1
  rw [Engine.get_eq_ok_iff]
  constructor
  · rintro ⟨results, hran, hresult⟩
    obtain ⟨nodes, hown, houtcome⟩ :=
      Engine.run_outcome ⟨.onePass, reports, builtins⟩ env hconfluent.legal hknown
    rw [hran] at houtcome
    obtain ⟨order, hlegal, hall, hexecuted⟩ := houtcome
    have hmem := (hall output).2 (hown output List.mem_cons_self)
    exact (execute_iff hemits hwritten hlegal hmem).1 ⟨_, hexecuted, hresult⟩
  · intro hvalue
    obtain ⟨s, hran, hresult⟩ := (execute_names_iff hemits hwritten).2 hvalue
    obtain ⟨val, hleaves, hgives⟩ := Graph.exists_values hconfluent.legal hran
    obtain ⟨order, results, _, hown, hdone, hleaves'⟩ :=
      Engine.run_of_gives hconfluent reports builtins hknown hgives
    have hresults' := hleaves'.results output
    rw [if_pos (hown output List.mem_cons_self)] at hresults'
    rw [hleaves.results, if_pos (hknown output List.mem_cons_self)] at hresult
    exact ⟨results, hdone, hresults'.trans hresult⟩

/-- Running the output task of a compiled expression succeeds exactly if its interpretation does,
with the same value: with an engine, whatever the order of reports, and in every legal order. -/
theorem Expr.compile_preserves_meaning {text : String} {names names' : NameSupply}
    (hparsed : Expr.parse text = .ok e) (hfinite : e.Finite)
    (hbuilt : e.buildWith names registry = (.ok (g, output), names')) (env : Environment)
    (v : Value) :
    (∀ (reports : ReportOrder) (builtins : Bool),
      (Engine.get ⟨.onePass, reports, builtins⟩ g output env).1 = .ok v ↔
        e.interpret registry env = .ok v) ∧
    ∀ order, g.Legal order → output ∈ order →
      ((∃ s, g.execute .onePass (.start env) order = .ok s ∧ s.results.get? output = some v) ↔
        e.interpret registry env = .ok v) := by
  have hemits := buildWith_emits hbuilt
  have hwritten := written_of_parse hparsed hfinite
  refine ⟨fun reports builtins => get_iff hemits hwritten reports builtins, ?_⟩
  intro order hlegal hmem
  exact execute_iff hemits hwritten hlegal hmem

/-- A call with a subscript, which is one more argument. -/
theorem Expr.compile_preserves_meaning_call_at :
    let e : Expr := .call "pack" [.literal (.text "u"), .literal (.bool true)]
      (some (.index (.literal (.number (Float.ofBits 0x3FF0000000000000)))))
    let registry := Registry.empty.install "pack" fun args => .ok (.tuple args)
    ∃ g output names', e.buildWith .fresh registry = (.ok (g, output), names') ∧
      (Engine.get ⟨.onePass, .firstStarted, true⟩ g output .empty).1 =
        .ok (.tuple [.text "u", .scalar (flag true),
        .scalar (Float.ofBits 0x3FF0000000000000)]) := by
  intro e registry
  have hone : (Float.ofBits 0x3FF0000000000000).isFinite := by decide
  have hname : ColumnName "pack" := .word (by decide) (by decide)
  have hplain : "u".toList.all isPlain := by decide
  have hwellFormed : e.WellFormed := ⟨hname, ⟨hplain, trivial, trivial⟩, hone⟩
  have hparsed : Expr.parse e.render = .ok e := Expr.parse_render_of_wellFormed hwellFormed
  have hfinite : e.Finite := ⟨trivial, ⟨trivial, trivial, trivial⟩, hone⟩
  have hvalue : e.interpret registry .empty = .ok (.tuple [.text "u", .scalar (flag true),
    .scalar (Float.ofBits 0x3FF0000000000000)]) := rfl
  obtain ⟨g, output, names', hbuilt⟩ :
    ∃ g output names', e.buildWith .fresh registry = (.ok (g, output), names') := ⟨_, _, _, rfl⟩
  refine ⟨g, output, names', hbuilt, ?_⟩
  exact ((Expr.compile_preserves_meaning hparsed hfinite hbuilt .empty _).1 .firstStarted true).2
    hvalue

end ColumnFlow
