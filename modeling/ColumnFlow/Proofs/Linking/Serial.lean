import ColumnFlow.Proofs.Linking.Definitions
import ColumnFlow.Proofs.Linking.Ordering

/-!
# Linking is serializable

In insertion order the linked tasks do what evaluating the definitions in turn does: those of a
definition compute its value in the environment that the commits before it leave, and its
commit binds it. Since conflicting tasks are ordered by edges, every other legal order of the
tasks comes to the same.
-/

namespace ColumnFlow

namespace Linker

/-! ## Runs in insertion order -/

section

variable {registry : Registry} {l l' : Linker} {e : Expr} {part : Graph}
variable {target output commit : String} {s s' m : Store} {v : Value}

/-- Running the tasks of one more definition evaluates it and binds its variable. -/
theorem Step.sound (hstep : Step registry l target e part output commit l')
    (hran : l'.linked.graph.execute .onePass s l'.linked.graph.names = .ok s') :
    ∃ m v, l.linked.graph.execute .onePass s l.linked.graph.names = .ok m ∧
      e.interpret registry m.env = .ok v ∧ s'.env = m.env.insert target v ∧
      s'.results.get? commit = some v ∧
      ∀ n ∈ l.linked.graph.names, s'.results.get? n = m.results.get? n := by
  have hnodup : l'.linked.graph.names.Nodup := l'.linked.graph.tasks.nodup
  rw [hstep.attached.names] at hran hnodup
  obtain ⟨_, _, hapart⟩ := List.nodup_append.1 hnodup
  -- The run is that of the tasks before, then that of the definition, and last the commit.
  obtain ⟨m, hfirst, hrest⟩ := Graph.execute_append_eq_ok_iff.1 hran
  obtain ⟨m', hsecond, hlast⟩ := Graph.execute_append_eq_ok_iff.1 hrest
  obtain ⟨_, hran', ⟨⟩⟩ := Graph.execute_cons_eq_ok_iff.1 hlast
  obtain ⟨t, v, hknown, hvalue, rfl⟩ := Graph.runTask_eq_ok_iff.1 hran'
  obtain ⟨after, hknown', _⟩ := hstep.attached.commit_task
  cases hknown'.symm.trans hknown
  obtain ⟨hsame, vs, hvalues, hresolved⟩ := hstep.emits.sound
    (List.forall_mem_singleton.2 hstep.written) part.tasks.nodup hstep.holds hsecond
  obtain ⟨w, hsingle, rfl⟩ := Part.interpretAll_singleton_eq_ok_iff.1 hvalues
  have hcommitted : v = w := by
    rw [Task.value_commit, Arg.resolve, Arg.resolveAll_ref_eq_ok_iff.1 hresolved] at hvalue
    cases hvalue
    rfl
  subst hcommitted
  rw [hstep.grows.execute_eq fun n hmem => hmem] at hfirst
  refine ⟨m, v, hfirst, hsingle, ?_, ?_, ?_⟩
  · rw [← hsame]
    rfl
  · rw [Table.get?_insert, if_pos rfl]
  · intro n hmem
    refine Graph.results_of_not_mem hrest fun hlater => ?_
    exact hapart n hmem n hlater rfl

theorem Step.complete (hstep : Step registry l target e part output commit l')
    (hran : l.linked.graph.execute .onePass s l.linked.graph.names = .ok m)
    (hvalue : e.interpret registry m.env = .ok v) :
    ∃ s', l'.linked.graph.execute .onePass s l'.linked.graph.names = .ok s' := by
  have hwritten : ∀ p ∈ [Part.expr e], p.Written := List.forall_mem_singleton.2 hstep.written
  have hvalues : Part.interpretAll registry m.env [.expr e] = .ok [v] :=
    Part.interpretAll_singleton_eq_ok_iff.2 ⟨v, hvalue, rfl⟩
  rw [← hstep.grows.execute_eq fun n hmem => hmem] at hran
  obtain ⟨m', hsecond⟩ := hstep.emits.complete hwritten part.tasks.nodup hstep.holds hvalues
  obtain ⟨_, vs, hvalues', hresolved⟩ :=
    hstep.emits.sound hwritten part.tasks.nodup hstep.holds hsecond
  cases hvalues.symm.trans hvalues'
  obtain ⟨after, hknown, _⟩ := hstep.attached.commit_task
  have hsource : Task.value .onePass m'.results.get? m'.env
      ⟨.commit target, [.ref output], after⟩ = .ok v := by
    rw [Task.value_commit, Arg.resolve, Arg.resolveAll_ref_eq_ok_iff.1 hresolved]
  have hbound := Graph.runTask_eq_ok_iff.2 ⟨_, v, hknown, hsource, rfl⟩
  have hlast : l'.linked.graph.execute .onePass m' [commit] = .ok _ :=
    Graph.execute_cons_eq_ok_iff.2 ⟨_, hbound, rfl⟩
  rw [hstep.attached.names]
  have hrest := Graph.execute_append_eq_ok_iff.2 ⟨m', hsecond, hlast⟩
  exact ⟨_, Graph.execute_append_eq_ok_iff.2 ⟨m, hran, hrest⟩⟩

/-- What has been linked does what evaluating the definitions in turn does. -/
structure Follows (registry : Registry) (definitions : List (String × String)) (l : Linker) :
    Prop where
  targets : l.linked.commits.map Prod.fst = definitions.map Prod.fst
  sound : ∀ {env : Environment} {s : Store},
    l.linked.graph.execute .onePass (.start env) l.linked.graph.names = .ok s →
    ∃ values, interpretInTurn registry env definitions = .ok (values, s.env) ∧
      l.linked.commitTasks.map s.results.get? = values.map some
  complete : ∀ {env env' : Environment} {values : List Value},
    interpretInTurn registry env definitions = .ok (values, env') →
    ∃ s, l.linked.graph.execute .onePass (.start env) l.linked.graph.names = .ok s

theorem follows_start : start.Follows registry [] := by
  refine ⟨rfl, ?_, ?_⟩
  · rintro env _ ⟨⟩
    exact ⟨[], rfl, rfl⟩
  · intro env env' values _
    exact ⟨.start env, rfl⟩

/-- One more definition is followed as well. -/
theorem Step.follows {definitions : List (String × String)} {text : String}
    (hstep : Step registry l target e part output commit l') (hparsed : Expr.parse text = .ok e)
    (hfollows : l.Follows registry definitions) :
    l'.Follows registry (definitions ++ [(target, text)]) := by
  refine ⟨?_, ?_, ?_⟩
  · rw [hstep.attached.commits, List.map_append, List.map_append, hfollows.targets]
    rfl
  · intro env s hran
    obtain ⟨m, v, hbefore, hvalue, hbound, hresult, hkept⟩ := hstep.sound hran
    obtain ⟨values, hturn, hresults⟩ := hfollows.sound hbefore
    refine ⟨values ++ [v], ?_, ?_⟩
    · rw [← interpretText_of_parse hparsed] at hvalue
      exact interpretInTurn_snoc_eq_ok_iff.2 ⟨values, m.env, v, hturn, hvalue, rfl, hbound⟩
    · have hsame : l.linked.commitTasks.map s.results.get? =
          l.linked.commitTasks.map m.results.get? :=
        List.map_congr_left fun c hmem => hkept c (hstep.tidy.known c hmem)
      rw [hstep.commitTasks_eq, List.map_append, List.map_append, hsame, hresults]
      exact congrArg (_ ++ [·]) hresult
  · intro env env' values hturn
    obtain ⟨ws, before, v, hothers, hvalue, rfl, rfl⟩ := interpretInTurn_snoc_eq_ok_iff.1 hturn
    obtain ⟨m, hran⟩ := hfollows.complete hothers
    obtain ⟨values', hothers', _⟩ := hfollows.sound hran
    cases hothers.symm.trans hothers'
    rw [interpretText_of_parse hparsed] at hvalue
    exact hstep.complete hran hvalue

/-- Linking one more definition is a step, if its number literals are finite. -/
theorem define_ok {text : String} (htidy : l.Tidy)
    (hfinite : ∀ e, Expr.parse text = .ok e → e.Finite)
    (hdefined : l.define registry (target, text) = .ok l') :
    ∃ names e part output commit, Expr.parse text = .ok e ∧
      Step registry { l with names } target e part output commit l' := by
  obtain ⟨e, part, output, names, hdefined⟩ := define_eq_ok_iff.1 hdefined
  have htidy' : ({ l with names } : Linker).Tidy :=
    ⟨htidy.confluent, htidy.latest, htidy.known, htidy.leads⟩
  have hparsed := hdefined.compiled.parsed
  have hwritten := written_of_parse hparsed (hfinite e hparsed)
  exact ⟨names, e, part, output, _, hparsed, htidy', hwritten, hdefined.compiled.emits,
    hdefined.attached⟩

/-- Linking keeps its invariants over any list of definitions. -/
theorem foldlM_define_ok {done rest : List (String × String)} (htidy : l.Tidy)
    (hfollows : l.Follows registry done)
    (hfinite : ∀ d ∈ rest, ∀ e, Expr.parse d.2 = .ok e → e.Finite)
    (hlinked : rest.foldlM (define registry) l = .ok l') :
    l'.Tidy ∧ l'.Follows registry (done ++ rest) := by
  induction rest generalizing l done with
  | nil =>
    cases hlinked
    rw [List.append_nil]
    exact ⟨htidy, hfollows⟩
  | cons d ds ih =>
    obtain ⟨m, hfirst, hlater⟩ := bind_eq_ok_iff.1 (List.foldlM_cons.symm.trans hlinked)
    obtain ⟨target, text⟩ := d
    rw [List.forall_mem_cons] at hfinite
    obtain ⟨names, e, part, output, commit, hparsed, hstep⟩ := define_ok htidy hfinite.1 hfirst
    have hfollows' : ({ l with names } : Linker).Follows registry done :=
      ⟨hfollows.targets, hfollows.sound, hfollows.complete⟩
    have hall := ih hstep.tidy' (hstep.follows hparsed hfollows') hfinite.2 hlater
    rwa [List.append_assoc] at hall

end

end Linker

variable {definitions : List (String × String)} {registry : Registry} {linked : Linked}
variable {env env' : Environment} {values : List Value}

theorem link_ok (haccepted : link definitions registry = .ok linked)
    (hfinite : ∀ d ∈ definitions, ∀ e, Expr.parse d.2 = .ok e → e.Finite) :
    ∃ l : Linker, l.linked = linked ∧ l.Tidy ∧ l.Follows registry definitions := by
  obtain ⟨l, hfolded, heq⟩ := bind_eq_ok_iff.1 haccepted
  cases heq
  exact ⟨l, rfl, Linker.foldlM_define_ok Linker.tidy_start Linker.follows_start hfinite hfolded⟩

/-! ## Runs in other orders -/

/-- Runs of the linked tasks give each its value and together leave the bindings of `env'`. -/
structure Linked.RunsAs (linked : Linked) (env : Environment) (val : String → Value)
    (env' : Environment) : Prop where
  /-- Every legal list of tasks runs. -/
  values : ∀ order, linked.graph.Legal order →
    ∃ s, linked.graph.execute .onePass (.start env) order = .ok s ∧
      ∀ n ∈ order, s.results.get? n = some (val n)
  /-- The bindings are those that all tasks leave. -/
  bindings : ∀ order s, linked.graph.Legal order → (∀ n ∈ linked.graph.names, n ∈ order) →
    linked.graph.execute .onePass (.start env) order = .ok s → ∀ x, s.env.get? x = env'.get? x
  /-- An engine runs its targets and what they depend on, whatever the order of reports. -/
  engines : ∀ (reports : ReportOrder) (builtins : Bool) (targets : List String),
    (∀ t ∈ targets, t ∈ linked.graph.names) →
    ∃ results, (Engine.run ⟨.onePass, reports, builtins⟩ linked.graph targets env).1 = .ok results ∧
      ∀ t ∈ targets, results.get? t = some (val t) ∧
        ∀ n, linked.graph.Before n t → results.get? n = some (val n)

/-- If the definitions have values in turn, all runs of the linked tasks agree with them. -/
theorem Linker.Follows.runsAs {l : Linker} (htidy : l.Tidy)
    (hfollows : l.Follows registry definitions)
    (hturn : interpretInTurn registry env definitions = .ok (values, env')) :
    ∃ val, l.linked.commitTasks.map val = values ∧ l.linked.RunsAs env val env' ∧
      ∀ n ∈ l.linked.graph.names, l.linked.graph.Gives .onePass env val n := by
  obtain ⟨s, hran⟩ := hfollows.complete hturn
  obtain ⟨values', hturn', hresults⟩ := hfollows.sound hran
  cases hturn.symm.trans hturn'
  have hconfluent := htidy.confluent
  obtain ⟨val, hleaves, hgives⟩ := Graph.exists_values hconfluent.legal hran
  refine ⟨val, ?_, ⟨?_, ?_, ?_⟩, hgives⟩
  · have hsame :
        l.linked.commitTasks.map s.results.get? = (l.linked.commitTasks.map val).map some := by
      rw [List.map_map]
      refine List.map_congr_left fun c hmem => ?_
      rw [hleaves.results, if_pos (htidy.known c hmem)]
      rfl
    exact List.map_injective_iff.2 (fun _ _ => Option.some.inj) (hsame.symm.trans hresults)
  · intro order hlegal
    obtain ⟨s', hran', hleaves'⟩ := hconfluent.execute_of_gives hgives hlegal
    exact ⟨s', hran', fun n hmem => by rw [hleaves'.results, if_pos hmem]⟩
  · intro order s' hlegal hall hran' x
    obtain ⟨s'', hran'', hleaves'⟩ := hconfluent.execute_of_gives hgives hlegal
    cases hran'.symm.trans hran''
    have hsame : ∀ n, n ∈ order ↔ n ∈ l.linked.graph.names :=
      fun n => ⟨hlegal.mem_names, hall n⟩
    exact hleaves'.env_eq hconfluent.ordered hlegal hconfluent.legal hsame hleaves x
  · intro reports builtins targets hknown
    obtain ⟨order, results, hlegal, hown, hdone, hleaves'⟩ :=
      Engine.run_of_gives hconfluent reports builtins hknown hgives
    refine ⟨results, hdone, fun t hmem => ⟨?_, fun n hbefore => ?_⟩⟩
    · exact (hleaves'.results t).trans (if_pos (hown t hmem))
    · exact (hleaves'.results n).trans (if_pos (hlegal.mem_of_mem (hown t hmem) hbefore))

/-- If the definitions have no values in turn, some task fails in every order. -/
theorem Linker.Follows.meetsFailure {l : Linker} {failure : Failure} {order : List String}
    (htidy : l.Tidy) (hfollows : l.Follows registry definitions)
    (hturn : interpretInTurn registry env definitions = .error failure)
    (hlegal : l.linked.graph.Legal order) (hall : ∀ n ∈ l.linked.graph.names, n ∈ order) :
    l.linked.graph.MeetsFailure .onePass (.start env) order := by
  refine Graph.meetsFailure_of_not_ok (fun n hmem => hlegal.mem_names hmem) fun s hran => ?_
  obtain ⟨s', hran', _⟩ := htidy.confluent.execute_of_execute hlegal htidy.confluent.legal hall hran
  obtain ⟨values, hturn', _⟩ := hfollows.sound hran'
  cases hturn.symm.trans hturn'

/-! ## Stages -/

theorem lookup_map {α β : Type} {x : String} {f : α → β} {entries : List (String × α)} :
    (entries.map fun e => (e.1, f e.2)).lookup x = (entries.lookup x).map f := by
  induction entries with
  | nil => rfl
  | cons e es ih =>
    rw [List.map_cons, List.lookup_cons, List.lookup_cons, ih]
    cases x == e.1 with
    | true => rfl
    | false => rfl

theorem exists_commitOf? {target : String} (hdefined : target ∈ linked.commits.map Prod.fst) :
    ∃ c, linked.commitOf? target = some c ∧ c ∈ linked.commitTasks := by
  unfold Linked.commitOf?
  cases hfound : linked.commits.reverse.lookup target with
  | none =>
    obtain ⟨e, hmem, rfl⟩ := List.mem_map.1 hdefined
    have hother := List.lookup_eq_none_iff.1 hfound e (List.mem_reverse.2 hmem)
    simp at hother
  | some c => exact ⟨c, rfl, List.mem_map_of_mem (Linker.mem_of_commitOf? hfound)⟩

/-- A stage returns the values of the last commits. -/
theorem Stage.values_ok {stage : Stage} {results : Table Value} {val : String → Value}
    (htargets : linked.commits.map Prod.fst = stage.definitions.map Prod.fst)
    (hcommitted : ∀ c ∈ linked.commitTasks, results.get? c = some (val c)) :
    ∃ returned, stage.values linked results = .ok returned ∧
      returned.map Prod.fst = stage.targets ∧
      ∀ x v, (x, v) ∈ returned → (linked.commitOf? x).map val = some v := by
  have hall : ∀ t ∈ stage.targets, t ∈ linked.commits.map Prod.fst := by
    intro t hmem
    rw [htargets]
    exact List.mem_eraseDups.1 hmem
  unfold Stage.values
  generalize stage.targets = names at hall
  induction names with
  | nil => exact ⟨[], rfl, rfl, fun x v hmem => by cases hmem⟩
  | cons t ts ih =>
    rw [List.forall_mem_cons] at hall
    obtain ⟨c, hlast, htask⟩ := exists_commitOf? hall.1
    obtain ⟨returned, hrest, hnames, hlasts⟩ := ih hall.2
    refine ⟨(t, val c) :: returned, ?_, ?_, ?_⟩
    · rw [List.mapM_cons, hrest, hlast, Option.bind_some, hcommitted c htask]
      rfl
    · rw [List.map_cons, hnames]
    · intro x v hmem
      rcases List.mem_cons.1 hmem with hsame | hlater
      · cases hsame
        rw [hlast]
        rfl
      · exact hlasts x v hlater

/-- What a stage returns once its definitions have values in turn. -/
theorem Linker.Follows.runWith {l : Linker} {name : String} (htidy : l.Tidy)
    (hfollows : l.Follows registry definitions)
    (haccepted : link definitions registry = .ok l.linked)
    (hturn : interpretInTurn registry env definitions = .ok (values, env'))
    (reports : ReportOrder) (builtins : Bool) :
    ∃ returned left, Stage.runWith ⟨name, definitions⟩ ⟨.onePass, reports, builtins⟩ registry env =
        (.ok returned, left) ∧
      returned.map Prod.fst = (definitions.map Prod.fst).eraseDups ∧
      (∀ x v, (x, v) ∈ returned →
        ((definitions.map Prod.fst).zip values).reverse.lookup x = some v) ∧
      ∀ x, left.get? x = env'.get? x := by
  obtain ⟨val, rfl, hruns, hgives⟩ := hfollows.runsAs htidy hturn
  obtain ⟨order, results, hlegal, hown, hdone, hleaves⟩ :=
    Engine.run_of_gives htidy.confluent reports builtins htidy.known hgives
  -- Every task is a commit or leads to one, so that a run of the commits runs all of them.
  have hall : ∀ n ∈ l.linked.graph.names, n ∈ order := by
    intro n hmem
    rcases htidy.leads n hmem with hcommit | ⟨c, hcommit, hbefore⟩
    · exact hown n hcommit
    · exact hlegal.mem_of_mem (hown c hcommit) hbefore
  have htargets : l.linked.commits.map Prod.fst =
    (Stage.mk name definitions).definitions.map Prod.fst := hfollows.targets
  obtain ⟨returned, hok, hnames, hlasts⟩ := Stage.values_ok htargets
    fun c hmem => (hleaves.results c).trans (if_pos (hown c hmem))
  let engine : Engine := ⟨.onePass, reports, builtins⟩
  refine ⟨returned, (engine.run l.linked.graph l.linked.commitTasks env).2, ?_, hnames, ?_, ?_⟩
  · rw [Stage.runWith, haccepted]
    dsimp only
    rw [hdone]
    exact Prod.ext hok rfl
  · intro x v hmem
    rw [← hfollows.targets, Linked.commitTasks, List.map_map, List.zip_map', ← List.map_reverse]
    exact lookup_map.trans (hlasts x v hmem)
  · intro x
    obtain ⟨s, hran, hleaves'⟩ := htidy.confluent.execute_of_gives hgives hlegal
    have hlast := hruns.bindings order s hlegal hall hran x
    exact (hleaves.env x).trans ((hleaves'.env x).symm.trans hlast)

/-! ## Serializability -/

/-- Linking is serializable: if the definitions have values in turn, every run of the linked tasks
gives each commit its value and leaves the same bindings, as does running the stage, and if they
have not, some task fails in every order of all tasks. -/
theorem link_serializable (haccepted : link definitions registry = .ok linked)
    (hfinite : ∀ d ∈ definitions, ∀ e, Expr.parse d.2 = .ok e → e.Finite) (env : Environment) :
    (∀ values env', interpretInTurn registry env definitions = .ok (values, env') →
      (∃ val, linked.commitTasks.map val = values ∧ linked.RunsAs env val env') ∧
      ∀ (name : String) (reports : ReportOrder) (builtins : Bool), ∃ returned left,
        Stage.runWith ⟨name, definitions⟩ ⟨.onePass, reports, builtins⟩ registry env =
          (.ok returned, left) ∧
        returned.map Prod.fst = (definitions.map Prod.fst).eraseDups ∧
        (∀ x v, (x, v) ∈ returned →
          ((definitions.map Prod.fst).zip values).reverse.lookup x = some v) ∧
        ∀ x, left.get? x = env'.get? x) ∧
    ∀ failure, interpretInTurn registry env definitions = .error failure →
      ∀ order, linked.graph.Legal order → (∀ n ∈ linked.graph.names, n ∈ order) →
        linked.graph.MeetsFailure .onePass (.start env) order := by
  obtain ⟨l, rfl, htidy, hfollows⟩ := link_ok haccepted hfinite
  constructor
  · intro values env' hturn
    obtain ⟨val, hcommits, hruns, _⟩ := hfollows.runsAs htidy hturn
    refine ⟨⟨val, hcommits, hruns⟩, fun name reports builtins => ?_⟩
    exact hfollows.runWith htidy haccepted hturn reports builtins
  · intro failure hturn order hlegal hall
    exact hfollows.meetsFailure htidy hturn hlegal hall

/-- A variable of the environment that is read and then overwritten. -/
theorem link_serializable_overwrite :
    let definitions := [("y", "x"), ("x", "True")]
    let env := Table.empty.insert "x" (.scalar (flag false))
    ∃ linked val, link definitions .empty = .ok linked ∧
      linked.commitTasks.map val = [.scalar (flag false), .scalar (flag true)] ∧
      linked.RunsAs env val
        ((env.insert "y" (.scalar (flag false))).insert "x" (.scalar (flag true))) := by
  intro definitions env
  have hwellFormed : (Expr.column "x").WellFormed := ⟨.word (by decide) (by decide), trivial⟩
  have hreads : Expr.parse "x" = .ok (.column "x") := Expr.parse_render_of_wellFormed hwellFormed
  have hbinds : Expr.parse "True" = .ok (.literal (.bool true)) :=
    Expr.parse_render_of_wellFormed (e := .literal (.bool true)) trivial
  have hfinite : ∀ d ∈ definitions, ∀ e, Expr.parse d.2 = .ok e → e.Finite := by
    simp only [definitions, List.forall_mem_cons, hreads, hbinds]
    refine ⟨?_, ?_, List.forall_mem_nil _⟩
    · rintro _ ⟨⟩
      exact ⟨trivial, trivial⟩
    · rintro _ ⟨⟩
      trivial
  obtain ⟨l, hfirst, l', hsecond⟩ : ∃ l, Linker.define .empty .start ("y", "x") = .ok l ∧
      ∃ l', Linker.define .empty l ("x", "True") = .ok l' := by
    simp only [Linker.define.eq_def _ Linker.start, hreads, Except.mapError]
    refine ⟨_, rfl, Linker.exists_define hbinds rfl rfl rfl rfl ?_⟩
    exact Graph.exists_addEdges (by decide) (by decide) (by decide) rfl
  have haccepted : link definitions .empty = .ok l'.linked := by
    refine bind_eq_ok_iff.2 ⟨l', List.foldlM_cons.trans ?_, rfl⟩
    refine bind_eq_ok_iff.2 ⟨l, hfirst, List.foldlM_cons.trans ?_⟩
    exact bind_eq_ok_iff.2 ⟨l', hsecond, rfl⟩
  have hturn : interpretInTurn .empty env definitions =
      .ok ([.scalar (flag false), .scalar (flag true)],
        (env.insert "y" (.scalar (flag false))).insert "x" (.scalar (flag true))) := by
    simp only [definitions, interpretInTurn, interpretText_of_parse hreads,
      interpretText_of_parse hbinds]
    rfl
  obtain ⟨val, hvalues, hruns⟩ := ((link_serializable haccepted hfinite env).1 _ _ hturn).1
  exact ⟨l'.linked, val, haccepted, hvalues, hruns⟩

end ColumnFlow
