import ColumnFlow.Proofs.Engine

/-!
# Logs of runs

The log of a run tells in which order its tasks are started, each with results of others, and
report values. Any task in flight may report next, with any value that it may have. Whatever
happens, each task that is needed is started once, after everything it depends on has reported
and with just these values, and no run waits for a report that does not come.
-/

namespace ColumnFlow

open Progress

/-! ## Logs -/

/-- What happens to the tasks of a run. -/
inductive Event where
  | started (f : Flight)
  | reported (name : String) (v : Value)

namespace Event

def flight? : Event → Option Flight
  | .started f => some f
  | .reported .. => none

def reporter? : Event → Option String
  | .started _ => none
  | .reported name _ => some name

end Event

/-- The tasks that were started. -/
def starts (log : List Event) : List Flight := log.filterMap Event.flight?

/-- The names of the tasks that reported. -/
def reports (log : List Event) : List String := log.filterMap Event.reporter?

/-- Which values a started task may report in an environment, and the environments it may
leave. -/
abbrev Reporting : Type := Environment → Flight → Value → Environment → Prop

/-- The logs of a plan with the states they lead to. At each step any task in flight reports,
and the tasks that this starts are added to those in flight. -/
inductive Logged (p : Plan) (env : Environment) (may : Reporting) :
    List Event → Progress → Prop where
  | initial : Logged p env may ((initial p env).inFlight.map .started) (initial p env)
  | report {log : List Event} {s : Progress} {place : Nat} {f : Flight}
      {others started : List Flight} {v : Value} {env' : Environment} :
      Logged p env may log s → pick? s.inFlight place = some (f, others) → may s.env f v env' →
      (deliver p { s with inFlight := others, env := env' } f.name v).inFlight = others ++ started →
      Logged p env may (log ++ .reported f.name v :: started.map .started)
        (deliver p { s with inFlight := others, env := env' } f.name v)

/-- Everything the task depends on has reported, and the task has exactly these values. -/
structure Graph.Informed (g : Graph) (log : List Event) (f : Flight) : Prop where
  reported : ∀ d ∈ g.dependenciesOf f.name, ∃ v, .reported d v ∈ log
  exactly : ∀ d v, f.inputs.get? d = some v ↔ d ∈ g.dependenciesOf f.name ∧ .reported d v ∈ log

section

variable {log more : List Event} {n : String} {f : Flight}

theorem mem_reports_iff : n ∈ reports log ↔ ∃ v, .reported n v ∈ log := by
  unfold reports
  rw [List.mem_filterMap]
  constructor
  · rintro ⟨e, hmem, hnamed⟩
    cases e with
    | started f => cases hnamed
    | reported m v =>
      cases hnamed
      exact ⟨v, hmem⟩
  · rintro ⟨v, hmem⟩
    exact ⟨_, hmem, rfl⟩

theorem mem_starts_iff : f ∈ starts log ↔ .started f ∈ log := by
  unfold starts
  rw [List.mem_filterMap]
  constructor
  · rintro ⟨e, hmem, hnamed⟩
    cases e with
    | started f =>
      cases hnamed
      exact hmem
    | reported m v => cases hnamed
  · exact fun hmem => ⟨_, hmem, rfl⟩

theorem starts_append : starts (log ++ more) = starts log ++ starts more := List.filterMap_append

theorem reports_append : reports (log ++ more) = reports log ++ reports more :=
  List.filterMap_append

theorem starts_map (flights : List Flight) : starts (flights.map .started) = flights := by
  unfold starts
  rw [List.filterMap_map]
  exact List.filterMap_some

/-- While tasks are only started, none reports. -/
theorem not_mem_of_map_started {flights : List Flight} {v : Value}
    (hsplit : flights.map .started = log ++ more) : .reported n v ∉ log := by
  intro hmem
  have hinside := hsplit ▸ List.mem_append_left more hmem
  simp at hinside

theorem reports_map (flights : List Flight) : reports (flights.map .started) = [] := by
  unfold reports
  rw [List.filterMap_map]
  exact List.filterMap_eq_nil_iff.2 fun _ _ => rfl

theorem starts_report (name : String) (v : Value) (started : List Flight) :
    starts (log ++ .reported name v :: started.map .started) = starts log ++ started := by
  rw [starts_append]
  exact congrArg (starts log ++ ·) (starts_map started)

theorem reports_report (name : String) (v : Value) (started : List Flight) :
    reports (log ++ .reported name v :: started.map .started) = reports log ++ [name] := by
  rw [reports_append]
  exact congrArg (reports log ++ name :: ·) (reports_map started)

/-- The results are the reported values, also after a further report. -/
theorem get?_insert_eq_some_iff {results : Table Value} {name m : String} {v w : Value}
    (hknown : ∀ m w, results.get? m = some w ↔ .reported m w ∈ log) (hfresh : name ∉ reports log) :
    (results.insert name v).get? m = some w ↔ .reported m w ∈ log ++ [.reported name v] := by
  rw [Table.get?_insert, List.mem_append, List.mem_singleton]
  split
  · next hsame =>
    subst hsame
    have hmissing : .reported m w ∉ log := fun hmem => hfresh (mem_reports_iff.2 ⟨w, hmem⟩)
    rw [or_iff_right hmissing]
    simp [eq_comm]
  · next hother =>
    rw [hknown]
    simp [hother]

end

/-! ## What a log says about the state -/

variable {p : Plan} {env : Environment} {may : Reporting} {log : List Event} {s : Progress}

/-- What a log of a plan says, about the state that it leads to and by itself. -/
structure Tracks (p : Plan) (log : List Event) (s : Progress) : Prop where
  counted : s.Counted p (reports log) []
  results : ∀ n v, s.results.get? n = some v ↔ .reported n v ∈ log
  names : ((starts log).map Flight.name).Perm (reports log ++ s.flying)
  flights : ∀ f ∈ s.inFlight, f ∈ starts log
  informed : ∀ before f after, log = before ++ .started f :: after → p.graph.Informed before f

theorem informed_inputsOf {results : Table Value} {n : String}
    (hknown : ∀ m v, results.get? m = some v ↔ .reported m v ∈ log)
    (hall : ∀ d ∈ p.graph.dependenciesOf n, d ∈ reports log) :
    p.graph.Informed log ⟨n, p.inputsOf results n⟩ := by
  refine ⟨fun d hedge => mem_reports_iff.1 (hall d hedge), fun d v => ?_⟩
  rw [Plan.get?_inputsOf_eq_some_iff, hknown]

/-- If the started tasks of a log are informed, so are those that are started after a report of
the last value they depend on. -/
theorem informed_report {results : Table Value} {name : String} {v : Value} {started : List Flight}
    (hearlier : ∀ before f after, log = before ++ .started f :: after → p.graph.Informed before f)
    (hknown : ∀ m w, results.get? m = some w ↔ .reported m w ∈ log ++ [.reported name v])
    (hready : ∀ f ∈ started, (∃ n, f = ⟨n, p.inputsOf results n⟩) ∧
      ∀ d ∈ p.graph.dependenciesOf f.name, d ∈ reports log ++ [name])
    {before after : List Event} {f : Flight}
    (hsplit : log ++ .reported name v :: started.map .started = before ++ .started f :: after) :
    p.graph.Informed before f := by
  -- The flight was started after the report or in the log before it.
  rcases List.append_eq_append_iff.1 hsplit with ⟨middle, rfl, htail⟩ | ⟨middle, hfront, htail⟩
  · cases middle with
    | nil => cases htail
    | cons e middle =>
      obtain ⟨rfl, hsame⟩ := List.cons.inj htail
      have hbelow : started.map Event.started = middle ++ .started f :: after := hsame
      have hinside : f ∈ started := by
        have hmem : Event.started f ∈ started.map .started := by simp [hbelow]
        simpa using hmem
      have hsilent (m : String) (w : Value) : Event.reported m w ∉ middle :=
        not_mem_of_map_started hbelow
      obtain ⟨⟨n, rfl⟩, hdependencies⟩ := hready f hinside
      refine informed_inputsOf (fun m w => ?_) fun d hedge => ?_
      · rw [hknown]
        simp [hsilent]
      · rw [← List.singleton_append, ← List.append_assoc, reports_append, reports_append]
        exact List.mem_append_left _ (hdependencies d hedge)
  · cases middle with
    | nil => cases htail
    | cons e middle =>
      obtain ⟨rfl, -⟩ := List.cons.inj htail
      exact hearlier before f middle hfront

/-- At the beginning the log says what was started, and nothing else. -/
theorem tracks_initial (hsound : p.Sound) :
    Tracks p ((initial p env).inFlight.map .started) (initial p env) := by
  have hresults : (initial p env).results = .empty := by
    unfold initial
    rw [foldl_start]
  refine ⟨?_, fun n v => ?_, ?_, fun f hmem => ?_, fun before f after hsplit => ?_⟩
  · rw [reports_map]
    exact counted_initial hsound
  · rw [hresults]
    simp
  · rw [starts_map, reports_map]
    exact .refl _
  · rwa [starts_map]
  · have hmem : f ∈ (initial p env).inFlight := by
      have hinside : Event.started f ∈ (initial p env).inFlight.map .started := by simp [hsplit]
      simpa using hinside
    rw [inFlight_initial] at hmem
    obtain ⟨n, hinside, rfl⟩ := List.mem_map.1 hmem
    obtain ⟨hnode, hfree⟩ := List.mem_filter.1 hinside
    have hnone : p.graph.dependenciesOf n = [] := by
      rw [← hsound.needs_eq hnode]
      exact List.isEmpty_iff.1 hfree
    refine informed_inputsOf (fun m v => ?_) (by simp [hnone])
    exact iff_of_false (by simp) (not_mem_of_map_started hsplit)

/-- A report, and the tasks that it starts. -/
theorem Tracks.report {place : Nat} {f : Flight} {others started : List Flight} {v : Value}
    {env' : Environment} (hsound : p.Sound) (h : Tracks p log s)
    (hpicked : pick? s.inFlight place = some (f, others))
    (hflights : (deliver p { s with inFlight := others, env := env' } f.name v).inFlight =
      others ++ started) :
    Tracks p (log ++ .reported f.name v :: started.map .started)
      (deliver p { s with inFlight := others, env := env' } f.name v) := by
  have hcounted := h.counted.deliver v env' hsound hpicked
  obtain ⟨first, second, hsplit, hrest⟩ := pick?_eq_some hpicked
  have hfresh : f.name ∉ reports log :=
    (Graph.legal_snoc.1 (h.counted.ready hsound (mem_of_pick? hpicked)).2).2.1
  -- The announcements start the tasks that have waited for this report last, and bind no result.
  obtain ⟨ns, hinFlight, hresults, -⟩ := @announce_starts p
    { s with inFlight := others, env := env', results := s.results.insert f.name v }
    (p.dependents f.name)
  have hstarted_eq : started = ns.map fun n => ⟨n, p.inputsOf (s.results.insert f.name v) n⟩ :=
    List.append_cancel_left (hflights.symm.trans hinFlight)
  have hknown (n : String) (w : Value) :=
    get?_insert_eq_some_iff (m := n) (v := v) (w := w) h.results hfresh
  refine ⟨?_, fun n w => ?_, ?_, fun g hmem => ?_, fun before g after => ?_⟩
  · rwa [reports_report]
  · rw [deliver, hresults, hknown]
    simp
  · have hflying : (deliver p { s with inFlight := others, env := env' } f.name v).flying =
        others.map Flight.name ++ started.map Flight.name := by
      rw [Progress.flying, hflights, List.map_append]
    have hfront : (reports log ++ s.flying).Perm
        (reports log ++ [f.name] ++ others.map Flight.name) := by
      rw [List.append_assoc, Progress.flying, hsplit, hrest, List.map_append, List.map_append]
      exact List.perm_middle.append_left _
    rw [starts_report, reports_report, hflying, List.map_append, ← List.append_assoc]
    exact (h.names.trans hfront).append_right _
  · rw [hflights] at hmem
    rw [starts_report]
    rcases List.mem_append.1 hmem with hstays | hstarts
    · exact List.mem_append_left _ (h.flights g (mem_of_mem_others hpicked hstays))
    · exact List.mem_append_right _ hstarts
  · refine informed_report h.informed hknown fun g hinside => ⟨?_, fun d hedge => ?_⟩
    · rw [hstarted_eq] at hinside
      obtain ⟨n, -, rfl⟩ := List.mem_map.1 hinside
      exact ⟨n, rfl⟩
    · have hflies :
          g ∈ (deliver p { s with inFlight := others, env := env' } f.name v).inFlight := by
        rw [hflights]
        exact List.mem_append_right _ hinside
      exact (hcounted.ready hsound hflies).2.mem_of_before (.direct hedge)

theorem Logged.tracks (hsound : p.Sound) (hlogged : Logged p env may log s) : Tracks p log s := by
  induction hlogged with
  | initial => exact tracks_initial hsound
  | report _ hpicked _ hflights ih => exact ih.report hsound hpicked hflights

/-- Any report that a task in flight may make continues the log. -/
theorem Logged.next {place : Nat} {f : Flight} {others : List Flight} {v : Value}
    {env' : Environment} (hlogged : Logged p env may log s)
    (hpicked : pick? s.inFlight place = some (f, others)) (reports : may s.env f v env') :
    ∃ started : List Flight, Logged p env may (log ++ .reported f.name v :: started.map .started)
      (deliver p { s with inFlight := others, env := env' } f.name v) := by
  obtain ⟨ns, hinFlight, -, -⟩ := @announce_starts p
    { s with inFlight := others, env := env', results := s.results.insert f.name v }
    (p.dependents f.name)
  exact ⟨_, hlogged.report hpicked reports hinFlight⟩

/-- What is reported, a started task may report. -/
theorem Logged.origin {n : String} {v : Value} (hsound : p.Sound) (hlogged : Logged p env may log s)
    (hmem : .reported n v ∈ log) :
    ∃ f env₁ env₂, .started f ∈ log ∧ f.name = n ∧ may env₁ f v env₂ := by
  induction hlogged with
  | initial => simp at hmem
  | @report log s _ f _ _ w env' hlogged hpicked reports _ ih =>
    rcases List.mem_append.1 hmem with hold | hnew
    · obtain ⟨g, env₁, env₂, hstarted, hname, hmay⟩ := ih hold
      exact ⟨g, env₁, env₂, List.mem_append_left _ hstarted, hname, hmay⟩
    · have hsame : n = f.name ∧ v = w := by simpa using hnew
      obtain ⟨rfl, rfl⟩ := hsame
      have hstarted := mem_starts_iff.1 ((hlogged.tracks hsound).flights f (mem_of_pick? hpicked))
      exact ⟨f, s.env, env', List.mem_append_left _ hstarted, rfl, reports⟩

/-! ## Safety -/

/-- What every log of a run for the targets obeys. -/
structure Graph.SafeLog (g : Graph) (targets : List String) (log : List Event) : Prop where
  needed : ∀ f, .started f ∈ log → g.Needed targets f.name
  once : ((starts log).map Flight.name).Nodup
  informed : ∀ before f after, log = before ++ .started f :: after → g.Informed before f
  reportedOnce : (reports log).Nodup

/-- A log that tracks the state is safe. -/
theorem Tracks.safe {targets : List String} (h : Tracks p log s)
    (hnodes : ∀ n, n ∈ p.nodes ↔ p.graph.Needed targets n) : p.graph.SafeLog targets log := by
  have hapart : (reports log ++ s.flying).Nodup := by
    refine List.nodup_append.2 ⟨h.counted.legal.nodup, h.counted.once, ?_⟩
    rintro n hreported m hflies rfl
    exact ((h.counted.flies n).1 hflies).2.1 hreported
  have hinside : ∀ n ∈ reports log ++ s.flying, n ∈ p.nodes :=
    List.forall_mem_append.2 ⟨h.counted.inside, fun n hflies => ((h.counted.flies n).1 hflies).1⟩
  refine ⟨fun f hmem => (hnodes _).1 (hinside _ ?_), ?_, h.informed, h.counted.legal.nodup⟩
  · exact h.names.mem_iff.1 (List.mem_map_of_mem (mem_starts_iff.2 hmem))
  · exact h.names.nodup_iff.2 hapart

/-- Each time a report is announced to a task, the task still waits for one. -/
theorem Tracks.counter_positive {place : Nat} {f : Flight} {others : List Flight} {v : Value}
    {env' : Environment} {before after : List String} {m : String} (hsound : p.Sound)
    (h : Tracks p log s) (hpicked : pick? s.inFlight place = some (f, others))
    (hannounced : p.dependents f.name = before ++ m :: after) :
    ∃ k, (before.foldl (countDown p) { s with
        inFlight := others, env := env', results := s.results.insert f.name v }).waiting.get? m =
      some (k + 1) := by
  have hreported := h.counted.report v env' hsound hpicked
  rw [hannounced] at hreported
  have hcounted := hreported.announce
  have hwaiting := hcounted.waits m (hcounted.coming m List.mem_cons_self).1
  rw [List.count_cons_self, ← Nat.add_assoc] at hwaiting
  exact ⟨_, hwaiting⟩

/-- While a task has not reported, there is a started one that has not. -/
theorem Tracks.not_stalled {n : String} (hsound : p.Sound) (h : Tracks p log s) (hmem : n ∈ p.nodes)
    (hmissing : ∀ v, .reported n v ∉ log) :
    ∃ f ∈ s.inFlight, .started f ∈ log ∧ ∀ v, .reported f.name v ∉ log := by
  have hsilent : n ∉ reports log := fun hreported =>
    (mem_reports_iff.1 hreported).elim hmissing
  obtain ⟨f, hflies⟩ := List.exists_mem_of_ne_nil _ (h.counted.not_stalled hsound hmem hsilent)
  refine ⟨f, hflies, mem_starts_iff.1 (h.flights f hflies), fun v hreported => ?_⟩
  exact ((h.counted.flies f.name).1 (List.mem_map_of_mem hflies)).2.1
    (mem_reports_iff.2 ⟨v, hreported⟩)

/-! ## Runs of an engine -/

/-- A task reports the value that its work has. -/
def performs (evaluator : Evaluator) (p : Plan) : Reporting :=
  fun env f v env' => perform evaluator p env f = .ok (v, env')

/-- A run comes to the end of a log in which all tasks have reported, or to a started task that
fails. -/
def Plan.Ends (evaluator : Evaluator) (p : Plan) (env : Environment) :
    Except RunError (Table Value) → Prop
  | .ok results => ∃ log s, Logged p env (performs evaluator p) log s ∧ results = s.results ∧
      ∀ n ∈ p.nodes, n ∈ reports log
  | .error e => ∃ log s f cause, Logged p env (performs evaluator p) log s ∧ f ∈ s.inFlight ∧
      perform evaluator p s.env f = .error cause ∧ e = .task f.name cause

/-- A run ends once every task has reported, or with a task that fails. -/
theorem Logged.ends {evaluator : Evaluator} {order : ReportOrder} {step left : Nat}
    (hsound : p.Sound) (hlogged : Logged p env (performs evaluator p) log s)
    (hcount : (reports log).length + left = p.nodes.length) :
    p.Ends evaluator env (s.finish evaluator p order step left).1 := by
  -- On the reports that are still missing: while there are any, some task is in flight and reports
  -- next.
  induction left generalizing log s step with
  | zero =>
    have hcounted := (hlogged.tracks hsound).counted
    exact ⟨log, s, hlogged, rfl, fun n => (hcounted.complete (Nat.le_of_eq hcount.symm) n).2⟩
  | succ left ih =>
    have hshort : (reports log).length < p.nodes.length := by omega
    obtain ⟨f, others, hpicked⟩ :=
      (hlogged.tracks hsound).counted.exists_pick hsound hshort (order step)
    unfold finish
    rw [hpicked]
    dsimp only
    cases hperformed : perform evaluator p s.env f with
    | error e => exact ⟨log, s, f, e, hlogged, mem_of_pick? hpicked, hperformed, rfl⟩
    | ok r =>
      obtain ⟨v, env'⟩ := r
      obtain ⟨started, hnext⟩ := hlogged.next hpicked hperformed
      refine ih hnext ?_
      rw [reports_append]
      have hone : reports (.reported f.name v :: started.map .started) = [f.name] :=
        congrArg (f.name :: ·) (reports_map started)
      rw [hone, List.length_append, List.length_singleton]
      omega

namespace Engine

variable {g : Graph} {targets : List String}

/-- In a graph without cycles, targets whose references resolve are run safely, in whatever order
the tasks in flight report and whatever they report: what is needed is started once, with the
values of everything it depends on, no counter is counted down from zero, and while something
has not reported, a started task has not. A run that succeeds has the reports of just these
tasks as its results, each the value that the work of the started task had. -/
theorem run_safe (hacyclic : g.Acyclic) (hresolves : ∀ n, g.Needed targets n → n ∈ g.names) :
    ∃ p, plan g targets = .ok p ∧
      (∀ env may log s, Logged p env may log s →
        g.SafeLog targets log ∧
        (∀ place f others v env' before m after, pick? s.inFlight place = some (f, others) →
          p.dependents f.name = before ++ m :: after →
          ∃ k, (before.foldl (countDown p) { s with
              inFlight := others, env := env', results := s.results.insert f.name v }
            ).waiting.get? m = some (k + 1)) ∧
        ∀ n, g.Needed targets n → (∀ v, .reported n v ∉ log) →
          ∃ f ∈ s.inFlight, .started f ∈ log ∧ ∀ v, .reported f.name v ∉ log) ∧
      ∀ (engine : Engine) (env : Environment),
        (∀ results, (engine.run g targets env).1 = .ok results →
          ∃ log s, Logged p env (performs engine.evaluator p) log s ∧
            (∀ n v, results.get? n = some v ↔ .reported n v ∈ log) ∧
            (∀ n, (∃ v, results.get? n = some v) ↔ g.Needed targets n) ∧
            ∀ n v, results.get? n = some v → ∃ f env₁ env₂, .started f ∈ log ∧ f.name = n ∧
              perform engine.evaluator p env₁ f = .ok (v, env₂)) ∧
        ∀ e, (engine.run g targets env).1 = .error e →
          ∃ log s f cause, Logged p env (performs engine.evaluator p) log s ∧ f ∈ s.inFlight ∧
            perform engine.evaluator p s.env f = .error cause ∧ e = .task f.name cause := by
  -- Any log of the plan tracks its state; an engine is one way to extend the log up to an end.
  obtain ⟨p, hplanned, rfl, hsound, hnodes⟩ := plan_ok hacyclic hresolves
  refine ⟨p, hplanned, fun env may log s hlogged => ?_, fun engine env => ?_⟩
  · have htracks := hlogged.tracks hsound
    refine ⟨htracks.safe hnodes, ?_, fun n hneeded => htracks.not_stalled hsound
      ((hnodes n).2 hneeded)⟩
    intro place f others v env' before m after hpicked hannounced
    exact htracks.counter_positive hsound hpicked hannounced
  · have hends : p.Ends engine.evaluator env (engine.run p.graph targets env).1 := by
      rw [run, hplanned]
      refine Logged.ends hsound .initial ?_
      rw [reports_map]
      exact Nat.zero_add _
    cases hresult : (engine.run p.graph targets env).1 with
    | error e =>
      rw [hresult] at hends
      refine ⟨fun _ h => (by cases h), fun e' h => ?_⟩
      cases h
      exact hends
    | ok results =>
      rw [hresult] at hends
      obtain ⟨log, s, hlogged, rfl, hall⟩ := hends
      have htracks := hlogged.tracks hsound
      refine ⟨fun results h => ?_, fun _ h => by cases h⟩
      cases h
      refine ⟨log, s, hlogged, htracks.results, fun n => ?_, fun n v hresult => ?_⟩
      · rw [← hnodes, ← exists_congr fun v => (htracks.results n v).symm, ← mem_reports_iff]
        exact ⟨htracks.counted.inside n, hall n⟩
      · exact hlogged.origin hsound ((htracks.results n v).1 hresult)

/-- A call that refers to a task twice, the second time within a tuple, and comes after it too. -/
theorem run_safe_repeated_reference :
    let pack : Function := ⟨"pack", 0, fun args => .ok (.tuple args)⟩
    let g : Graph := ⟨.ofList [("a", .constant (.bool true)),
      ("b", ⟨.call pack, [.ref "a", .tuple [.ref "a", .absent]], ["a"]⟩), ("c", .commit "x" "b")],
      some "a", some "c"⟩
    g.Acyclic ∧ (∀ n, g.Needed ["c"] n → n ∈ g.names) ∧
      ∃ p, plan g ["c"] = .ok p ∧
        ∀ env may log s, Logged p env may log s → g.SafeLog ["c"] log := by
  intro pack g
  have hlegal : g.Legal g.names := by
    refine ⟨List.not_mem_nil, ⟨_, rfl, ?_⟩, ?_, ⟨_, rfl, ?_⟩, ?_, ⟨_, rfl, ?_⟩, trivial⟩ <;> decide
  have hknown : ∀ t ∈ ["c"], t ∈ g.names := by decide
  have hresolves : ∀ n, g.Needed ["c"] n → n ∈ g.names := fun n => hlegal.mem_of_needed hknown
  obtain ⟨p, hplanned, hsafe, -⟩ := run_safe hlegal.acyclic hresolves
  exact ⟨hlegal.acyclic, hresolves, p, hplanned, fun env may log s hlogged =>
    (hsafe env may log s hlogged).1⟩

end Engine

end ColumnFlow
