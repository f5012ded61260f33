import Mathlib.Data.List.Induction
import ColumnFlow.Proofs.Confluence

/-!
# Runs with interleaved tasks

A task that has been started runs at some time before it reports, beside the others in flight, and
a run that fails still waits for what it has started. Here running and reporting are steps of their
own, in any order. What comes of a task is left open: while it runs others may commit, so that
neither the environment it sees nor its outcome is determined. Whatever happens, only commits of
needed tasks touch the environment, each after everything it depends on has succeeded.
-/

namespace ColumnFlow

open Progress

/-! ## Tasks that have run -/

/-- A started task that has run, and what came of it. -/
structure Body where
  flight : Flight
  outcome : Except TaskError Value

namespace Body

def name (b : Body) : String := b.flight.name

/-- The environment after a task has run: a commit that has a result binds its variable. -/
def leave (g : Graph) (b : Body) (env : Environment) : Environment :=
  match b.outcome, g.committed? b.name with
  | .ok v, some x => env.insert x v
  | _, _ => env

variable {g : Graph} {f : Flight} {v : Value} {env : Environment} {b : Body} {x : String}

theorem leave_ok {t : Task} (htask : g.get? f.name = some t) :
    leave g ⟨f, .ok v⟩ env = t.bind v env := by
  unfold leave Task.bind name
  rw [Graph.committed?, htask, Option.bind_some]
  cases t.committed? <;> rfl

/-- A task changes at most the variable that it commits. -/
theorem get?_leave : (b.leave g env).get? x = env.get? x ∨
    ∃ v, b.outcome = .ok v ∧ g.committed? b.name = some x ∧ (b.leave g env).get? x = some v := by
  unfold leave
  split
  · next v y houtcome hcommits =>
    rw [Table.get?_insert]
    split
    · next hsame =>
      subst hsame
      exact .inr ⟨v, houtcome, hcommits, rfl⟩
    · exact .inl rfl
  · exact .inl rfl

end Body

/-- What may come of the tasks that are started. -/
abbrev Outcomes : Type := Flight → Except TaskError Value → Prop

/-- What the work of a task comes to in one environment or another. -/
def Graph.works (evaluator : Evaluator) (g : Graph) : Outcomes := fun f outcome =>
  ∃ t env, g.get? f.name = some t ∧
    outcome = (t.value evaluator f.inputs.get? env).mapError Failure.asTaskError

/-! ## Interleavings -/

/-- The states of a run with the tasks that have run, in the order in which they did. Any task in
flight that has not run may run next, and any that has run with success may report next. -/
inductive Interleaved (p : Plan) (env : Environment) (may : Outcomes) :
    List Body → Progress → Prop where
  | initial : Interleaved p env may [] (initial p env)
  | run {bodies : List Body} {s : Progress} {f : Flight} {outcome : Except TaskError Value} :
      Interleaved p env may bodies s → f ∈ s.inFlight → (∀ b ∈ bodies, b.name ≠ f.name) →
      may f outcome →
      Interleaved p env may (bodies ++ [⟨f, outcome⟩])
        { s with env := Body.leave p.graph ⟨f, outcome⟩ s.env }
  | report {bodies : List Body} {s : Progress} {place : Nat} {f : Flight} {others : List Flight}
      {v : Value} :
      Interleaved p env may bodies s → pick? s.inFlight place = some (f, others) →
      ⟨f, .ok v⟩ ∈ bodies →
      Interleaved p env may bodies (deliver p { s with inFlight := others } f.name v)

/-- How a run for some targets may end, with the tasks that have run by then. -/
inductive Goes (g : Graph) (targets : List String) (env : Environment) (may : Outcomes) :
    List Body → Except RunError (Table Value) → Environment → Prop where
  /-- The targets have no plan. -/
  | refused {e : GraphError} : Engine.plan g targets = .error e →
      Goes g targets env may [] (.error (.graph e)) env
  /-- Every task has reported. -/
  | completed {p : Plan} {bodies : List Body} {s : Progress} : Engine.plan g targets = .ok p →
      Interleaved p env may bodies s → (∀ n ∈ p.nodes, ∃ v, s.results.get? n = some v) →
      Goes g targets env may bodies (.ok s.results) s.env
  /-- A task has failed, and everything that was started has run. -/
  | failed {p : Plan} {bodies : List Body} {s : Progress} {f : Flight} {cause : TaskError} :
      Engine.plan g targets = .ok p → Interleaved p env may bodies s → f ∈ s.inFlight →
      ⟨f, .error cause⟩ ∈ bodies → (∀ other ∈ s.inFlight, ∃ b ∈ bodies, b.flight = other) →
      Goes g targets env may bodies (.error (.task f.name cause)) s.env
  /-- Tasks are missing and none is in flight. -/
  | stalled {p : Plan} {bodies : List Body} {s : Progress} {n : String} :
      Engine.plan g targets = .ok p → Interleaved p env may bodies s → s.inFlight = [] →
      n ∈ p.nodes → s.results.get? n = none →
      Goes g targets env may bodies (.error .interrupted) s.env

/-! ## What has happened in the middle of a run -/

section

variable {p : Plan} {env : Environment} {may : Outcomes} {bodies : List Body} {s : Progress}
variable {log : List Event}

/-- A task of the graph ran when everything it depends on had succeeded, with just these values. -/
structure Graph.Prepared (g : Graph) (targets : List String) (earlier : List Body) (b : Body) :
    Prop where
  needed : g.Needed targets b.name
  succeeded : ∀ d ∈ g.dependenciesOf b.name, ∃ c ∈ earlier, ∃ v,
    c.name = d ∧ c.outcome = .ok v ∧ b.flight.inputs.get? d = some v

/-- What is known of the tasks that have run in the middle of a run. -/
structure Accounted (p : Plan) (targets : List String) (env : Environment) (bodies : List Body)
    (log : List Event) (s : Progress) : Prop where
  tracks : Tracks p log s
  ran : ∀ n v, .reported n v ∈ log → ∃ b ∈ bodies, b.name = n ∧ b.outcome = .ok v
  once : (bodies.map Body.name).Nodup
  prepared : ∀ before b after, bodies = before ++ b :: after → p.graph.Prepared targets before b
  env_eq : s.env = bodies.foldl (fun env b => b.leave p.graph env) env

/-- The environment is not among what a log says. -/
theorem Tracks.with_env (h : Tracks p log s) (env' : Environment) :
    Tracks p log { s with env := env' } := by
  obtain ⟨⟨hlegal, hinside, hwaits, hflies, honce, hcoming⟩, hresults, hnames, hflights,
    hinformed⟩ := h
  exact ⟨⟨hlegal, hinside, hwaits, hflies, honce, hcoming⟩, hresults, hnames, hflights, hinformed⟩

variable {targets : List String}

theorem Interleaved.accounted (hsound : p.Sound)
    (hnodes : ∀ n, n ∈ p.nodes ↔ p.graph.Needed targets n) (h : Interleaved p env may bodies s) :
    ∃ log, Accounted p targets env bodies log s := by
  -- Induction on what has happened: a body runs and leaves its binding at once, its report changes
  -- results and counters later.
  induction h with
  | initial =>
    refine ⟨_, tracks_initial hsound, fun n v hmem => by simp at hmem, List.nodup_nil,
      fun before b after hsplit => by simp at hsplit, ?_⟩
    unfold Progress.initial
    rw [foldl_start]
    rfl
  | @run bodies s f outcome _ hflies hnew _ ih =>
    obtain ⟨log, htracks, hran, honce, hprepared, henv_eq⟩ := ih
    refine ⟨log, htracks.with_env _, fun n v hmem => ?_, ?_, ?_, ?_⟩
    · obtain ⟨b, hmem, hsame, houtcome⟩ := hran n v hmem
      exact ⟨b, List.mem_append_left _ hmem, hsame, houtcome⟩
    · rw [List.map_append]
      refine List.nodup_append.2 ⟨honce, List.nodup_cons.2 ⟨List.not_mem_nil, List.nodup_nil⟩, ?_⟩
      rintro m hmem k hown rfl
      obtain ⟨b, hinside, rfl⟩ := List.mem_map.1 hmem
      exact hnew b hinside (List.mem_singleton.1 hown)
    · refine forall_split_snoc.2 ⟨hprepared,
        (hnodes _).1 (htracks.counted.ready hsound hflies).1, ?_⟩
      obtain ⟨val, hinputs⟩ := htracks.exists_inputs hran hflies
      intro d hedge
      obtain ⟨⟨c, hmem, hsame, hsucceeded⟩, hinput⟩ := hinputs d hedge
      exact ⟨c, hmem, val d, hsame, hsucceeded, hinput⟩
    · rw [List.foldl_append, ← henv_eq]
      rfl
  | @report bodies s place f others v _ hpicked hbody ih =>
    obtain ⟨log, htracks, hran, honce, hprepared, henv_eq⟩ := ih
    obtain ⟨ns, hflights, -, hkept⟩ := @announce_starts p
      { s with inFlight := others, results := s.results.insert f.name v } (p.dependents f.name)
    refine ⟨_, @Tracks.report p log s place f others _ v s.env hsound htracks hpicked hflights,
      ?_, honce, hprepared, hkept.trans henv_eq⟩
    intro n w hmem
    rcases List.mem_append.1 hmem with hold | hnew
    · exact hran n w hold
    · have hsame : n = f.name ∧ w = v := by simpa using hnew
      obtain ⟨rfl, rfl⟩ := hsame
      exact ⟨_, hbody, rfl, rfl⟩

/-- What differs after some tasks have run was committed by one of them. -/
theorem get?_foldl_leave {g : Graph} {x : String} (bodies : List Body)
    (hdiffers : (bodies.foldl (fun env b => b.leave g env) env).get? x ≠ env.get? x) :
    ∃ b ∈ bodies, ∃ v, b.outcome = .ok v ∧ g.committed? b.name = some x ∧
      (bodies.foldl (fun env b => b.leave g env) env).get? x = some v := by
  induction bodies using List.reverseRecOn with
  | nil => exact absurd rfl hdiffers
  | append_singleton bodies b ih =>
    rw [List.foldl_append, List.foldl_cons, List.foldl_nil] at hdiffers ⊢
    rcases @Body.get?_leave g (bodies.foldl (fun env b => b.leave g env) env) b x with
      hsame | ⟨v, houtcome, hcommits, hbound⟩
    · rw [hsame] at hdiffers ⊢
      obtain ⟨c, hmem, hcommit⟩ := ih hdiffers
      exact ⟨c, List.mem_append_left _ hmem, hcommit⟩
    · exact ⟨b, List.mem_append_right _ List.mem_cons_self, v, houtcome, hcommits, hbound⟩

end

/-! ## Plans -/

section

variable {g : Graph} {targets : List String} {env env' : Environment} {may : Outcomes}
variable {bodies : List Body} {result : Except RunError (Table Value)} {p : Plan}

/-- Why a run is refused: the graph has a cycle, a target is not in the graph, or one needs a task
with a reference that is not. -/
def Graph.Malformed (g : Graph) (targets : List String) : Prop :=
  ¬ g.Acyclic ∨ (∃ t ∈ targets, t ∉ g.names) ∨
    ∃ t ∈ targets, ∃ task reference, g.Dangles t task reference

theorem Graph.resolves_of_not_malformed (hformed : ¬ g.Malformed targets) {n : String}
    (hneeded : g.Needed targets n) : n ∈ g.names := by
  have hknown : ∀ t ∈ targets, t ∈ g.names := fun t hmem =>
    Decidable.byContradiction fun hunknown => hformed (.inr (.inl ⟨t, hmem, hunknown⟩))
  obtain ⟨t, htarget, hneeded⟩ := hneeded.exists_target
  have hinside : n ∈ g.names ∧ g.Needed [t] n := by
    refine hneeded.of_passes (P := fun n => n ∈ g.names ∧ g.Needed [t] n) ?_
      (List.forall_mem_singleton.2 ⟨hknown t htarget, .inl List.mem_cons_self⟩)
    rintro m ⟨hinside, hneeded⟩ d hedge
    refine ⟨Decidable.byContradiction fun hmissing => ?_, hneeded.dependency hedge⟩
    exact hformed (.inr (.inr ⟨t, htarget, m, d, hneeded, hinside, hedge, hmissing⟩))
  exact hinside.1

/-- A run has a plan, which is sound and has exactly what is needed, unless it is refused. -/
theorem Engine.plan_outcome (g : Graph) (targets : List String) :
    (g.Malformed targets ∧ ∃ e, plan g targets = .error e) ∨
    ¬ g.Malformed targets ∧ ∃ p, plan g targets = .ok p ∧ p.graph = g ∧ p.Sound ∧
      ∀ n, n ∈ p.nodes ↔ g.Needed targets n := by
  by_cases hmalformed : g.Malformed targets
  · refine .inl ⟨hmalformed, ?_⟩
    cases hplanned : plan g targets with
    | error e => exact ⟨e, rfl⟩
    | ok p =>
      obtain ⟨order, hfound, hplanned⟩ := bind_eq_ok_iff.1 hplanned
      obtain ⟨required, hlisted, -⟩ := bind_eq_ok_iff.1 hplanned
      have heach := exists_of_mapM_eq_ok hlisted
      rcases hmalformed with hcyclic | ⟨t, htarget, hunknown⟩ | ⟨t, htarget, task, reference,
        hdangles⟩
      · exact absurd
          (Graph.topologicalOrder_sorts DigraphLibrary.depthFirst_lawful hfound).acyclic hcyclic
      · exact absurd (Graph.exists_requiredFor_iff.1 (heach t htarget)).1 hunknown
      · exact absurd hdangles ((Graph.exists_requiredFor_iff.1 (heach t htarget)).2 task reference)
  · have hacyclic : g.Acyclic := Classical.byContradiction fun hcyclic => hmalformed (.inl hcyclic)
    exact .inr ⟨hmalformed, plan_ok hacyclic fun n => Graph.resolves_of_not_malformed hmalformed⟩

/-! ## What has happened at the end of a run -/

/-- A refused run has not begun; any other succeeds or fails with a needed task that has failed. -/
theorem Goes.outcome (hgoes : Goes g targets env may bodies result env') :
    (g.Malformed targets ∧ (∃ e, result = .error (.graph e)) ∧ bodies = [] ∧ env' = env) ∨
    ¬ g.Malformed targets ∧ ((∃ results, result = .ok results) ∨
        ∃ n cause, result = .error (.task n cause) ∧ g.Needed targets n ∧
          ∃ b ∈ bodies, b.name = n ∧ b.outcome = .error cause) ∧
      (bodies.map Body.name).Nodup ∧
      (∀ before b after, bodies = before ++ b :: after → g.Prepared targets before b) ∧
      env' = bodies.foldl (fun env b => b.leave g env) env := by
  rcases Engine.plan_outcome g targets with
    ⟨hmalformed, e, hrefused⟩ | ⟨hformed, p, hplanned, rfl, hsound, hnodes⟩
  · left
    cases hgoes with
    | @refused e => exact ⟨hmalformed, ⟨e, rfl⟩, rfl, rfl⟩
    | completed hplanned | failed hplanned | stalled hplanned => cases hplanned.symm.trans hrefused
  · right
    refine ⟨hformed, ?_⟩
    cases hgoes with
    | refused hrefused => cases hplanned.symm.trans hrefused
    | completed hplanned' hinterleaved _ =>
      cases hplanned.symm.trans hplanned'
      obtain ⟨log, haccounted⟩ := hinterleaved.accounted hsound hnodes
      exact ⟨.inl ⟨_, rfl⟩, haccounted.once, haccounted.prepared, haccounted.env_eq⟩
    | failed hplanned' hinterleaved hflies hbody _ =>
      cases hplanned.symm.trans hplanned'
      obtain ⟨log, haccounted⟩ := hinterleaved.accounted hsound hnodes
      have hneeded := (hnodes _).1 (haccounted.tracks.counted.ready hsound hflies).1
      exact ⟨.inr ⟨_, _, rfl, hneeded, _, hbody, rfl, rfl⟩, haccounted.once, haccounted.prepared,
        haccounted.env_eq⟩
    | stalled hplanned' hinterleaved hnone hnode hmissing =>
      cases hplanned.symm.trans hplanned'
      obtain ⟨log, haccounted⟩ := hinterleaved.accounted hsound hnodes
      obtain ⟨f, hflies, -⟩ := haccounted.tracks.not_stalled hsound hnode fun v hreported => by
        cases hmissing.symm.trans ((haccounted.tracks.results _ v).2 hreported)
      rw [hnone] at hflies
      cases hflies

end

/-! ## Runs of an engine -/

section

variable {p : Plan} {evaluator : Evaluator} {order : ReportOrder} {env : Environment}
variable {bodies : List Body} {s : Progress} {f : Flight} {log : List Event}

/-- A task that runs at once has an outcome of its work and leaves the environment accordingly. -/
theorem perform_outcome (hknown : f.name ∈ p.graph.names) : ∃ outcome,
    p.graph.works evaluator f outcome ∧ perform evaluator p env f =
      outcome.map fun v => (v, Body.leave p.graph ⟨f, outcome⟩ env) := by
  obtain ⟨t, htask⟩ := Graph.mem_names_iff.1 hknown
  refine ⟨_, ⟨t, env, htask, rfl⟩, ?_⟩
  unfold perform
  rw [htask]
  dsimp only
  rw [Task.run_eq]
  cases t.value evaluator f.inputs.get? env with
  | error e => rfl
  | ok v =>
    have hleft := @Body.leave_ok p.graph f v env t htask
    exact congrArg (fun env => Except.ok (v, env)) hleft.symm

/-- Some tasks are in flight and have not run. -/
structure Unrun (p : Plan) (s : Progress) (bodies : List Body) (flights : List Flight) : Prop where
  known : ∀ f ∈ flights, f.name ∈ p.graph.names
  flies : ∀ f ∈ flights, f ∈ s.inFlight
  nodup : (flights.map Flight.name).Nodup
  new : ∀ f ∈ flights, ∀ b ∈ bodies, b.name ≠ f.name

/-- When one of them runs, the others have not run. -/
theorem Unrun.others {flights others : List Flight} {place : Nat} {outcome : Except TaskError Value}
    (hunrun : Unrun p s bodies flights) (hpicked : pick? flights place = some (f, others)) :
    Unrun p s (bodies ++ [⟨f, outcome⟩]) others := by
  have hinside : ∀ other ∈ others, other ∈ flights := fun other hmem =>
    mem_of_mem_others hpicked hmem
  have hapart : (f.name :: others.map Flight.name).Nodup :=
    ((perm_of_pick? hpicked).map Flight.name).nodup_iff.1 hunrun.nodup
  obtain ⟨hfresh, hapart⟩ := List.nodup_cons.1 hapart
  refine ⟨fun other hmem => hunrun.known other (hinside other hmem),
    fun other hmem => hunrun.flies other (hinside other hmem), hapart, fun other hmem => ?_⟩
  refine List.forall_mem_append.2 ⟨hunrun.new other (hinside other hmem), ?_⟩
  exact List.forall_mem_singleton.2 fun hsame => hfresh (List.mem_map.2 ⟨other, hmem, hsame.symm⟩)

/-- What is in flight when a run fails still runs. -/
theorem drain_interleaved {flights : List Flight} {step : Nat} {env' : Environment}
    (hunrun : Unrun p s bodies flights)
    (h : Interleaved p env (p.graph.works evaluator) bodies { s with env := env' }) :
    ∃ bodies', bodies ⊆ bodies' ∧ (∀ f ∈ flights, ∃ b ∈ bodies', b.flight = f) ∧
      Interleaved p env (p.graph.works evaluator) bodies'
        { s with env := drain evaluator p order step env' flights } := by
  fun_induction drain evaluator p order step env' flights generalizing bodies with
  | case1 step env' flights hnone =>
    cases pick?_eq_none hnone
    exact ⟨bodies, List.Subset.refl _, List.forall_mem_nil _, h⟩
  | case2 step env' flights f others hpicked left =>
    rename_i ih
    have hown := mem_of_pick? hpicked
    obtain ⟨outcome, hworks, hperformed⟩ :=
      @perform_outcome p evaluator env' f (hunrun.known f hown)
    have hleft_eq : left = Body.leave p.graph ⟨f, outcome⟩ env' := by
      dsimp only [left]
      rw [hperformed]
      cases outcome <;> rfl
    have hran : Interleaved p env (p.graph.works evaluator) (bodies ++ [⟨f, outcome⟩])
        { s with env := left } := hleft_eq ▸ h.run (hunrun.flies f hown) (hunrun.new f hown) hworks
    obtain ⟨bodies', hmore, hall, hdrained⟩ := ih (hunrun.others hpicked) hran
    rw [List.append_subset] at hmore
    refine ⟨bodies', hmore.1, fun other hmem => ?_, hdrained⟩
    rcases List.mem_cons.1 ((perm_of_pick? hpicked).mem_iff.1 hmem) with rfl | hmem
    · exact ⟨_, hmore.2 List.mem_cons_self, rfl⟩
    · exact hall other hmem

/-- A run of an engine, from the middle on, is one in which each task runs when it is to report. -/
theorem finish_goes {targets : List String} {step left : Nat} (hsound : p.Sound)
    (hplanned : Engine.plan p.graph targets = .ok p)
    (hlogged : Logged p env (performs evaluator p) log s)
    (hcount : (reports log).length + left = p.nodes.length)
    (h : Interleaved p env (p.graph.works evaluator) bodies s)
    (hreported : ∀ b ∈ bodies, b.name ∈ reports log) :
    ∃ bodies', Goes p.graph targets env (p.graph.works evaluator) bodies'
      (s.finish evaluator p order step left).1 (s.finish evaluator p order step left).2 := by
  -- On the reports that are still missing. The next task to report is picked, and its body runs
  -- only now.
  induction left generalizing log s step bodies with
  | zero =>
    have htracks := hlogged.tracks hsound
    refine ⟨bodies, .completed hplanned h fun n hnode => ?_⟩
    have hall := (htracks.counted.complete (Nat.le_of_eq hcount.symm) n).2 hnode
    exact (mem_reports_iff.1 hall).imp fun v hmem => (htracks.results n v).2 hmem
  | succ left ih =>
    have htracks := hlogged.tracks hsound
    have hshort : (reports log).length < p.nodes.length := by omega
    obtain ⟨f, others, hpicked⟩ := htracks.counted.exists_pick hsound hshort (order step)
    have hunrun : Unrun p s bodies s.inFlight := by
      refine ⟨fun f hflies => ?_, fun f hflies => hflies, htracks.counted.once, ?_⟩
      · exact Graph.mem_names_iff.2 (hsound.known (htracks.counted.ready hsound hflies).1)
      · -- In an engine what has run has reported, so nothing in flight has run.
        intro f hflies b hmem hsame
        have hsilent := ((htracks.counted.flies f.name).1 (List.mem_map_of_mem hflies)).2.1
        exact hsilent (hsame ▸ hreported b hmem)
    have hown := mem_of_pick? hpicked
    obtain ⟨outcome, hworks, hperformed⟩ :=
      @perform_outcome p evaluator s.env f (hunrun.known f hown)
    have hran := h.run hown (hunrun.new f hown) hworks
    unfold finish
    rw [hpicked]
    dsimp only
    rw [hperformed]
    cases outcome with
    | error e =>
      obtain ⟨bodies', hmore, hall, hdrained⟩ :=
        @drain_interleaved p evaluator order env _ s others (step + 1) s.env
          (hunrun.others hpicked) hran
      rw [List.append_subset] at hmore
      refine ⟨bodies', .failed hplanned hdrained hown (hmore.2 List.mem_cons_self)
        fun other hmem => ?_⟩
      rcases List.mem_cons.1 ((perm_of_pick? hpicked).mem_iff.1 hmem) with rfl | hmem
      · exact ⟨_, hmore.2 List.mem_cons_self, rfl⟩
      · exact hall other hmem
    | ok v =>
      obtain ⟨started, hnext⟩ := hlogged.next hpicked hperformed
      refine ih hnext ?_ (hran.report hpicked (List.mem_append_right _ List.mem_cons_self)) ?_
      · rw [reports_report, List.length_append, List.length_singleton]
        omega
      · rw [reports_report]
        refine List.forall_mem_append.2
          ⟨fun b hmem => List.mem_append_left _ (hreported b hmem), ?_⟩
        exact List.forall_mem_singleton.2 (List.mem_append_right _ List.mem_cons_self)

end

namespace Engine

variable {g : Graph} {targets : List String} {env : Environment}

/-- A run of an engine goes as runs may go. -/
theorem run_goes (engine : Engine) (g : Graph) (targets : List String) (env : Environment) :
    ∃ bodies, Goes g targets env (g.works engine.evaluator) bodies
      (engine.run g targets env).1 (engine.run g targets env).2 := by
  rcases plan_outcome g targets with ⟨-, e, hrefused⟩ | ⟨-, p, hplanned, rfl, hsound, -⟩
  · rw [run, hrefused]
    exact ⟨[], .refused hrefused⟩
  · rw [run, hplanned]
    refine finish_goes hsound hplanned .initial ?_ .initial (List.forall_mem_nil _)
    rw [reports_map]
    exact Nat.zero_add _

/-- An engine's run is one of the ways in which a run may go. However a run goes, it ends with a
graph error exactly if the graph has a cycle, a target is not in the graph or one needs a task with
a reference that is not, and then no task has run and the environment is unchanged. Otherwise it
ends with results or with the failure of a needed task. The tasks that have run are needed, and each
ran once and after everything it depends on had succeeded. Where the environment differs in the end,
it has what a commit among them bound. -/
theorem run_all_or_nothing (engine : Engine) (g : Graph) (targets : List String)
    (env : Environment) :
    (∃ bodies, Goes g targets env (g.works engine.evaluator) bodies
      (engine.run g targets env).1 (engine.run g targets env).2) ∧
    ∀ may bodies result env', Goes g targets env may bodies result env' →
      ((∃ e, result = .error (.graph e)) ↔ ¬ g.Acyclic ∨ (∃ t ∈ targets, t ∉ g.names) ∨
        ∃ t ∈ targets, ∃ task reference, g.Dangles t task reference) ∧
      (∀ e, result = .error (.graph e) → bodies = [] ∧ env' = env) ∧
      ((∃ e, result = .error (.graph e)) ∨ (∃ results, result = .ok results) ∨
        ∃ n cause, result = .error (.task n cause) ∧ g.Needed targets n ∧
          ∃ b ∈ bodies, b.name = n ∧ b.outcome = .error cause) ∧
      (bodies.map Body.name).Nodup ∧
      (∀ before b after, bodies = before ++ b :: after → g.Prepared targets before b) ∧
      ∀ x, env'.get? x ≠ env.get? x → ∃ b ∈ bodies, ∃ v, b.outcome = .ok v ∧
        g.committed? b.name = some x ∧ env'.get? x = some v := by
  refine ⟨engine.run_goes g targets env, fun may bodies result env' hgoes => ?_⟩
  rcases hgoes.outcome with ⟨hmalformed, ⟨e, rfl⟩, rfl, rfl⟩ |
    ⟨hformed, hends, honce, hprepared, rfl⟩
  · refine ⟨iff_of_true ⟨e, rfl⟩ hmalformed, fun _ _ => ⟨rfl, rfl⟩, .inl ⟨e, rfl⟩, List.nodup_nil,
      ?_, ?_⟩
    · exact fun before b after hsplit => by simp at hsplit
    · exact fun x hdiffers => absurd rfl hdiffers
  · have hgraphless : ¬ ∃ e, result = .error (.graph e) := by
      rintro ⟨e, rfl⟩
      rcases hends with ⟨results, heq⟩ | ⟨n, cause, heq, -⟩
      · cases heq
      · cases heq
    exact ⟨iff_of_false hgraphless hformed, fun e heq => absurd ⟨e, heq⟩ hgraphless,
      .inr hends, honce, hprepared, fun x => get?_foldl_leave bodies⟩

/-- A commit that is not needed leaves its variable alone however a run goes, and a cycle beside
what is needed refuses the run. -/
theorem run_all_or_nothing_beside :
    let g : Graph := ⟨.ofList [("a", .constant (.bool true)), ("k", .commit "x" "a"),
      ("w", .commit "y" "a")], some "a", some "w"⟩
    let h : Graph := ⟨.ofList [("a", .constant (.bool true)), ("k", .commit "x" "a"),
      ("u", ⟨.eval "x", [], ["v"]⟩), ("v", .of (.eval "x") [.ref "u"])], some "a", some "v"⟩
    (∀ env may bodies result env', Goes g ["k"] env may bodies result env' →
      env'.get? "y" = env.get? "y" ∧ ¬ ∃ e, result = .error (.graph e)) ∧
    ∀ env, ∃ e, standard.run h ["k"] env = (.error (.graph e), env) := by
  intro g h
  constructor
  · intro env may bodies result env' hgoes
    obtain ⟨-, hall⟩ := run_all_or_nothing standard g ["k"] env
    obtain ⟨hrefused, -, -, -, hprepared, hframe⟩ := hall may bodies result env' hgoes
    have hlegal : g.Legal g.names := by
      refine ⟨List.not_mem_nil, ⟨_, rfl, ?_⟩, ?_, ⟨_, rfl, ?_⟩, ?_, ⟨_, rfl, ?_⟩, trivial⟩ <;>
        decide
    have hinside {n : String} (hneeded : g.Needed ["k"] n) : n ∈ ["a", "k"] :=
      hneeded.of_passes (by decide) (by decide)
    constructor
    · refine Classical.byContradiction fun hdiffers => ?_
      obtain ⟨b, hmem, v, -, hcommits, -⟩ := hframe "y" hdiffers
      obtain ⟨before, after, hsplit⟩ := List.append_of_mem hmem
      have hown := hinside (hprepared before b after hsplit).needed
      have hothers : ∀ n ∈ ["a", "k"], g.committed? n ≠ some "y" := by decide
      exact hothers b.name hown hcommits
    · rw [hrefused]
      rintro (hcyclic | ⟨t, htarget, hunknown⟩ | ⟨t, htarget, task, reference, hdangles⟩)
      · exact hcyclic hlegal.acyclic
      · exact hunknown ((by decide : ∀ t ∈ ["k"], t ∈ g.names) t htarget)
      · exact hdangles.missing (hlegal.mem_of_mem hdangles.known (.direct hdangles.refers))
  · intro env
    obtain ⟨⟨bodies, hgoes⟩, hall⟩ := run_all_or_nothing standard h ["k"] env
    obtain ⟨hrefused, hnothing, -⟩ := hall _ _ _ _ hgoes
    have hloop : h.Before "u" "u" :=
      .through (.direct (by decide : "u" ∈ h.dependenciesOf "v")) (by decide)
    obtain ⟨e, hfailed⟩ := hrefused.2 (.inl fun hacyclic => hacyclic "u" hloop)
    exact ⟨e, Prod.ext hfailed (hnothing e hfailed).2⟩

end Engine

end ColumnFlow
