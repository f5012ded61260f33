import ColumnFlow.Proofs.Reports
import ColumnFlow.Proofs.Validity

/-!
# Runs without commits are confluent

Where no task binds a variable, every task reads the environment that the run began with, and its
value is that of evaluating what it depends on first. In whatever order the tasks report, runs come
to the same results, or all of them come to a failure.
-/

namespace ColumnFlow

open Progress

/-! ## Evaluating a graph -/

namespace Graph

/-- The value of a task is its work on the values of the tasks it depends on. -/
inductive Evaluates (evaluator : Evaluator) (g : Graph) (env : Environment) :
    String → Value → Prop where
  | task {n : String} {t : Task} {val : String → Value} {v : Value} : g.get? n = some t →
      (∀ d ∈ t.dependencies, Evaluates evaluator g env d (val d)) →
      t.value evaluator (fun d => some (val d)) env = .ok v → Evaluates evaluator g env n v

/-- A task fails though everything it depends on has a value. -/
def Fails (evaluator : Evaluator) (g : Graph) (env : Environment) (n : String) (cause : TaskError) :
    Prop :=
  ∃ t, ∃ val : String → Value, g.get? n = some t ∧
    (∀ d ∈ t.dependencies, g.Evaluates evaluator env d (val d)) ∧
    (t.value evaluator (fun d => some (val d)) env).mapError Failure.asTaskError = .error cause

/-- Everything the targets need has a value, which is its work on the values of its references. -/
def Solves (evaluator : Evaluator) (g : Graph) (env : Environment) (targets : List String)
    (val : String → Option Value) : Prop :=
  ∀ n, g.Needed targets n →
    ∃ t v, g.get? n = some t ∧ val n = some v ∧ t.value evaluator val env = .ok v

variable {evaluator : Evaluator} {g : Graph} {env : Environment} {targets : List String}
variable {n : String} {t : Task} {v w : Value} {cause : TaskError}
variable {results results' : String → Option Value}

/-- The work of a task is the same on results that agree on what it depends on. -/
theorem value_congr_dependencies (hsame : ∀ d ∈ t.dependencies, results d = results' d) :
    t.value evaluator results env = t.value evaluator results' env :=
  Task.value_congr_refs fun r href => hsame r (Task.refs_subset_dependencies href)

theorem Evaluates.unique (h : g.Evaluates evaluator env n v) (h' : g.Evaluates evaluator env n w) :
    v = w := by
  induction h generalizing w with
  | @task n t val v htask _ hown ih =>
    obtain ⟨htask', hbelow, hown'⟩ := h'
    cases htask.symm.trans htask'
    rw [value_congr_dependencies fun d hedge => congrArg some (ih d hedge (hbelow d hedge))] at hown
    exact Except.ok.inj (hown.symm.trans hown')

/-- A task that fails has no value. -/
theorem Evaluates.not_fails (h : g.Evaluates evaluator env n v) :
    ¬ g.Fails evaluator env n cause := by
  rintro ⟨t, val, htask, hbelow, hfails⟩
  obtain ⟨htask', hbelow', hown⟩ := h
  cases htask.symm.trans htask'
  have hsame : ∀ d ∈ t.dependencies, some (val d) = some _ :=
    fun d hedge => congrArg some ((hbelow d hedge).unique (hbelow' d hedge))
  rw [value_congr_dependencies hsame, hown] at hfails
  cases hfails

/-- The values that solve the equations are those that evaluation gives. -/
theorem Solves.eq_of_evaluates {val : String → Option Value}
    (hsolves : g.Solves evaluator env targets val) (h : g.Evaluates evaluator env n v)
    (hneeded : g.Needed targets n) : val n = some v := by
  induction h with
  | @task n t val' v htask _ hown ih =>
    obtain ⟨t', w, htask', hvalue, hequation⟩ := hsolves n hneeded
    cases htask.symm.trans htask'
    have hsame : ∀ d ∈ t.dependencies, val d = some (val' d) := fun d hedge =>
      ih d hedge (hneeded.dependency (dependenciesOf_eq htask ▸ hedge))
    rw [value_congr_dependencies hsame] at hequation
    rw [hvalue, Except.ok.inj (hequation.symm.trans hown)]

end Graph

/-! ## Reported values -/

section

variable {p : Plan} {evaluator : Evaluator} {env : Environment} {log : List Event} {s : Progress}
variable {f : Flight} {t : Task} {val : String → Value}

theorem perform_eq (htask : p.graph.get? f.name = some t)
    (hinputs : ∀ d ∈ t.dependencies, f.inputs.get? d = some (val d)) :
    perform evaluator p env f =
      (t.value evaluator (fun d => some (val d)) env).mapError Failure.asTaskError >>=
        fun v => .ok (v, t.bind v env) := by
  unfold perform
  rw [htask]
  dsimp only
  rw [Task.run_eq, Graph.value_congr_dependencies hinputs]
  cases t.value evaluator (fun d => some (val d)) env with
  | error e => rfl
  | ok v => rfl

/-- A task in flight has been started with the values of what it depends on. -/
theorem Tracks.exists_inputs {P : String → Value → Prop} (h : Tracks p log s)
    (hreported : ∀ n v, .reported n v ∈ log → P n v) (hflies : f ∈ s.inFlight) :
    ∃ val : String → Value, ∀ d ∈ p.graph.dependenciesOf f.name,
      P d (val d) ∧ f.inputs.get? d = some (val d) := by
  obtain ⟨before, after, hsplit⟩ := List.append_of_mem (mem_starts_iff.1 (h.flights f hflies))
  have hinformed := h.informed before f after hsplit
  refine ⟨fun d => (f.inputs.get? d).getD .nothing, fun d hedge => ?_⟩
  obtain ⟨v, hmem⟩ := hinformed.reported d hedge
  have hinput := (hinformed.exactly d v).2 ⟨hedge, hmem⟩
  dsimp only
  rw [hinput]
  refine ⟨hreported d v ?_, rfl⟩
  rw [hsplit]
  exact List.mem_append_left _ hmem

/-- Without commits, the environment stays and reported values are those of evaluation. -/
theorem Logged.evaluates (hsound : p.Sound) (hfree : ∀ n, p.graph.committed? n = none)
    (hlogged : Logged p env (performs evaluator p) log s) :
    s.env = env ∧ ∀ n v, .reported n v ∈ log → p.graph.Evaluates evaluator env n v := by
  induction hlogged with
  | initial =>
    refine ⟨?_, fun n v hmem => by simp at hmem⟩
    unfold Progress.initial
    rw [foldl_start]
  | @report log s place f others started v env' hlogged hpicked hperformed hflights ih =>
    obtain ⟨hsame, hreported⟩ := ih
    have hflies := mem_of_pick? hpicked
    have htracks := hlogged.tracks hsound
    obtain ⟨t, htask⟩ := hsound.known (htracks.counted.ready hsound hflies).1
    obtain ⟨val, hinputs⟩ := htracks.exists_inputs hreported hflies
    rw [Graph.dependenciesOf_eq htask] at hinputs
    unfold performs at hperformed
    rw [perform_eq htask fun d hedge => (hinputs d hedge).2, hsame] at hperformed
    obtain ⟨v', hown, heq⟩ := bind_eq_ok_iff.1 hperformed
    cases heq
    have hunbound : t.bind v env = env := by
      have hnone := hfree f.name
      rw [Graph.committed?, htask, Option.bind_some] at hnone
      rw [Task.bind, hnone]
    refine ⟨?_, fun n w hmem => ?_⟩
    · obtain ⟨ns, -, -, hkept⟩ := @announce_starts p
        { s with inFlight := others, env := t.bind v env, results := s.results.insert f.name v }
        (p.dependents f.name)
      exact hkept.trans hunbound
    · rcases List.mem_append.1 hmem with hold | hnew
      · exact hreported n w hold
      · have heqs : n = f.name ∧ w = v := by simpa using hnew
        obtain ⟨rfl, rfl⟩ := heqs
        exact .task htask (fun d hedge => (hinputs d hedge).1) (mapError_eq_ok_iff.1 hown)

end

/-! ## Runs of an engine -/

namespace Engine

variable {g : Graph} {targets : List String} {evaluator : Evaluator} {env : Environment}
variable {order order' : ReportOrder} {builtins builtins' : Bool} {results : Table Value}
variable {n t : String} {v : Value}

/-- A run without commits comes to the values of everything that is needed, or to a task that
fails. -/
def Settles (evaluator : Evaluator) (g : Graph) (env : Environment) (targets : List String) :
    Except RunError (Table Value) → Prop
  | .ok results => (∀ n, (∃ v, results.get? n = some v) ↔ g.Needed targets n) ∧
      ∀ n v, results.get? n = some v → g.Evaluates evaluator env n v
  | .error e => ∃ n cause, e = .task n cause ∧ g.Needed targets n ∧ g.Fails evaluator env n cause

theorem run_settles (hvalid : g.validate = .ok ()) (hfree : ∀ n, g.committed? n = none)
    (hknown : ∀ t ∈ targets, t ∈ g.names) :
    Settles evaluator g env targets (run ⟨evaluator, order, builtins⟩ g targets env).1 := by
  obtain ⟨hacyclic, hresolves⟩ :=
    (Graph.validate_eq_ok_iff DigraphLibrary.depthFirst_lawful).1 hvalid
  obtain ⟨p, hplanned, rfl, hsound, hnodes⟩ :=
    plan_ok hacyclic fun n => hresolves.mem_of_needed hknown
  have hends : p.Ends evaluator env (run ⟨evaluator, order, builtins⟩ p.graph targets env).1 := by
    rw [run, hplanned]
    refine Logged.ends hsound .initial ?_
    rw [reports_map]
    exact Nat.zero_add _
  -- A run ends with a log of reports. Without commits the environment never changes, so that what
  -- the log reports is what the tasks evaluate to.
  cases hresult : (run ⟨evaluator, order, builtins⟩ p.graph targets env).1 with
  | ok results =>
    rw [hresult] at hends
    obtain ⟨log, s, hlogged, rfl, hall⟩ := hends
    have htracks := hlogged.tracks hsound
    refine ⟨fun n => ?_, fun n v hvalue => ?_⟩
    · rw [← hnodes, ← exists_congr fun v => (htracks.results n v).symm, ← mem_reports_iff]
      exact ⟨htracks.counted.inside n, hall n⟩
    · exact (hlogged.evaluates hsound hfree).2 n v ((htracks.results n v).1 hvalue)
  | error e =>
    rw [hresult] at hends
    obtain ⟨log, s, f, cause, hlogged, hflies, hfailed, rfl⟩ := hends
    obtain ⟨hsame, hreported⟩ := hlogged.evaluates hsound hfree
    have htracks := hlogged.tracks hsound
    have hnode := (htracks.counted.ready hsound hflies).1
    obtain ⟨t, htask⟩ := hsound.known hnode
    obtain ⟨val, hinputs⟩ := htracks.exists_inputs hreported hflies
    rw [Graph.dependenciesOf_eq htask] at hinputs
    rw [perform_eq htask fun d hedge => (hinputs d hedge).2, hsame] at hfailed
    refine ⟨f.name, cause, rfl, (hnodes _).1 hnode, t, val, htask,
      fun d hedge => (hinputs d hedge).1, ?_⟩
    cases hown : (t.value evaluator (fun d => some (val d)) env).mapError Failure.asTaskError with
    | error e =>
      rw [hown] at hfailed
      exact congrArg Except.error (Except.error.inj hfailed)
    | ok v =>
      rw [hown] at hfailed
      cases hfailed

/-- The first target that is not in the graph is refused before anything is run. -/
theorem run_unknown {engine : Engine} {before after : List String} (hvalid : g.validate = .ok ())
    (hknown : ∀ t ∈ before, t ∈ g.names) (hunknown : t ∉ g.names) :
    engine.run g (before ++ t :: after) env = (.error (.graph (.unknownTask t)), env) := by
  obtain ⟨hacyclic, hresolves⟩ :=
    (Graph.validate_eq_ok_iff DigraphLibrary.depthFirst_lawful).1 hvalid
  obtain ⟨sorted, hfound⟩ := Graph.topologicalOrder_ok DigraphLibrary.depthFirst_lawful hacyclic
  have hearlier : ∀ m ∈ before, ∃ listed, g.requiredFor m = .ok listed := by
    intro m hmem
    have hclosed : g.Closed (g.Needed [m]) := Graph.closed_needed fun n =>
      hresolves.mem_of_needed (List.forall_mem_singleton.2 (hknown m hmem))
    exact (Graph.requiredFor_ok hclosed).imp fun _ h => h.1
  rw [run, plan, hfound, mapM_eq_error hearlier (Graph.requiredFor_unknown hunknown)]
  rfl

/-- What two runs of the same targets agree on when they succeed. -/
structure Agreed (evaluator : Evaluator) (g : Graph) (env : Environment) (targets : List String)
    (results results' : Table Value) : Prop where
  same : ∀ n, results.get? n = results'.get? n
  needed : ∀ n, (∃ v, results.get? n = some v) ↔ g.Needed targets n
  solves : g.Solves evaluator env targets results.get?
  /-- There are no other values that solve the equations. -/
  unique : ∀ val, g.Solves evaluator env targets val → ∀ n, g.Needed targets n →
    val n = results.get? n
  /-- Each target has the value that it has when it is run by itself. -/
  alone : ∀ t ∈ targets, ∃ v, results.get? t = some v ∧ ∀ (order : ReportOrder) (builtins : Bool),
    (get ⟨evaluator, order, builtins⟩ g t env).1 = .ok v

/-- Two runs of the same targets both succeed or both come to a task that fails by itself. -/
def Agree (evaluator : Evaluator) (g : Graph) (env : Environment) (targets : List String) :
    Except RunError (Table Value) → Except RunError (Table Value) → Prop
  | .ok results, .ok results' => Agreed evaluator g env targets results results'
  | .error e, .error e' => ∃ n cause n' cause', e = .task n cause ∧ e' = .task n' cause' ∧
      (g.Needed targets n ∧ g.Fails evaluator env n cause) ∧
      g.Needed targets n' ∧ g.Fails evaluator env n' cause'
  | _, _ => False

/-- The results of a run are the solution of the equations. -/
theorem Settles.solves (hsettles : Settles evaluator g env targets (.ok results)) :
    g.Solves evaluator env targets results.get? := by
  obtain ⟨hkeys, hvalues⟩ := hsettles
  intro n hneeded
  obtain ⟨v, hvalue⟩ := (hkeys n).2 hneeded
  obtain ⟨htask, hbelow, hown⟩ := hvalues n v hvalue
  refine ⟨_, v, htask, hvalue, ?_⟩
  rw [← hown]
  refine Graph.value_congr_dependencies fun d hedge => ?_
  obtain ⟨w, hknown⟩ := (hkeys d).2 (hneeded.dependency (Graph.dependenciesOf_eq htask ▸ hedge))
  rw [hknown, (hvalues d w hknown).unique (hbelow d hedge)]

/-- A target has the same value by itself. -/
theorem Settles.get_eq (hsettles : Settles evaluator g env targets (.ok results))
    (hvalid : g.validate = .ok ()) (hfree : ∀ n, g.committed? n = none)
    (hknown : ∀ t ∈ targets, t ∈ g.names) (htarget : t ∈ targets)
    (hvalue : results.get? t = some v) :
    (get ⟨evaluator, order, builtins⟩ g t env).1 = .ok v := by
  obtain ⟨hkeys, hvalues⟩ := hsettles
  have halone := @run_settles g [t] evaluator env order builtins hvalid hfree
    (List.forall_mem_singleton.2 (hknown t htarget))
  cases hresult : (run ⟨evaluator, order, builtins⟩ g [t] env).1 with
  | error e =>
    rw [hresult] at halone
    obtain ⟨n, cause, -, hneeded, hfails⟩ := halone
    obtain ⟨w, hvalue'⟩ := (hkeys n).2 (hneeded.of_target htarget)
    exact absurd hfails (hvalues n w hvalue').not_fails
  | ok results' =>
    rw [hresult] at halone
    obtain ⟨w, hvalue'⟩ := (halone.1 t).2 (.inl List.mem_cons_self)
    refine get_eq_ok_iff.2 ⟨results', hresult, ?_⟩
    rw [hvalue', (halone.2 t w hvalue').unique (hvalues t v hvalue)]

theorem Settles.agree {result result' : Except RunError (Table Value)}
    (hsettles : Settles evaluator g env targets result)
    (hsettles' : Settles evaluator g env targets result') (hvalid : g.validate = .ok ())
    (hfree : ∀ n, g.committed? n = none) (hknown : ∀ t ∈ targets, t ∈ g.names) :
    Agree evaluator g env targets result result' := by
  -- No run can succeed where another fails: a task that evaluates to a value does not fail.
  cases result with
  | ok results =>
    cases result' with
    | ok results' =>
      refine ⟨fun n => ?_, hsettles.1, hsettles.solves, fun val hsolves n hneeded => ?_, ?_⟩
      · cases hvalue : results.get? n with
        | none =>
          cases hvalue' : results'.get? n with
          | none => rfl
          | some w =>
            obtain ⟨v, hsome⟩ := (hsettles.1 n).2 ((hsettles'.1 n).1 ⟨w, hvalue'⟩)
            rw [hvalue] at hsome
            cases hsome
        | some v =>
          obtain ⟨w, hvalue'⟩ := (hsettles'.1 n).2 ((hsettles.1 n).1 ⟨v, hvalue⟩)
          rw [hvalue', (hsettles.2 n v hvalue).unique (hsettles'.2 n w hvalue')]
      · obtain ⟨v, hvalue⟩ := (hsettles.1 n).2 hneeded
        rw [hvalue, hsolves.eq_of_evaluates (hsettles.2 n v hvalue) hneeded]
      · intro t htarget
        obtain ⟨v, hvalue⟩ := (hsettles.1 t).2 (.inl htarget)
        exact ⟨v, hvalue, fun order builtins => hsettles.get_eq hvalid hfree hknown htarget hvalue⟩
    | error e =>
      obtain ⟨n, cause, -, hneeded, hfails⟩ := hsettles'
      obtain ⟨v, hvalue⟩ := (hsettles.1 n).2 hneeded
      exact (hsettles.2 n v hvalue).not_fails hfails
  | error e =>
    obtain ⟨n, cause, heq, hneeded, hfails⟩ := hsettles
    cases result' with
    | ok results' =>
      obtain ⟨v, hvalue⟩ := (hsettles'.1 n).2 hneeded
      exact (hsettles'.2 n v hvalue).not_fails hfails
    | error e' =>
      obtain ⟨n', cause', heq', hneeded', hfails'⟩ := hsettles'
      exact ⟨n, cause, n', cause', heq, heq', ⟨hneeded, hfails⟩, hneeded', hfails'⟩

/-- Runs of a valid graph in which nothing is committed agree, in whatever order tasks report. The
first target that is not in the graph is an error of all of them. -/
theorem run_confluent (hvalid : g.validate = .ok ()) (hfree : ∀ n, g.committed? n = none)
    (evaluator : Evaluator) (env : Environment) (targets : List String)
    (order order' : ReportOrder) (builtins builtins' : Bool) :
    match targets.find? fun t => !g.contains t with
    | some t =>
      run ⟨evaluator, order, builtins⟩ g targets env = (.error (.graph (.unknownTask t)), env) ∧
      run ⟨evaluator, order', builtins'⟩ g targets env = (.error (.graph (.unknownTask t)), env)
    | none =>
      Agree evaluator g env targets (run ⟨evaluator, order, builtins⟩ g targets env).1
        (run ⟨evaluator, order', builtins'⟩ g targets env).1 := by
  cases hmissing : targets.find? fun t => !g.contains t with
  | some t =>
    obtain ⟨hunknown, before, after, rfl, hknown⟩ := List.find?_eq_some_iff_append.1 hmissing
    have hunknown : t ∉ g.names := fun hmem => by simp [Graph.contains_iff.2 hmem] at hunknown
    have hknown : ∀ m ∈ before, m ∈ g.names := fun m hmem =>
      Graph.contains_iff.1 (by simpa using hknown m hmem)
    exact ⟨run_unknown hvalid hknown hunknown, run_unknown hvalid hknown hunknown⟩
  | none =>
    have hknown : ∀ t ∈ targets, t ∈ g.names := fun t hmem =>
      Graph.contains_iff.1 (by simpa using List.find?_eq_none.1 hmissing t hmem)
    exact (run_settles hvalid hfree hknown).agree (run_settles hvalid hfree hknown) hvalid
      hfree hknown

/-- Two targets that need the same task, one of which needs the other. -/
theorem run_confluent_shared_task :
    let pack : Function := ⟨"pack", 0, fun args => .ok (.tuple args)⟩
    let g : Graph := ⟨.ofList [("a", .constant (.bool true)), ("b", .call pack [.ref "a"]),
      ("c", .call pack [.ref "a", .ref "b"])], some "a", some "c"⟩
    g.validate = .ok () ∧ (∀ n, g.committed? n = none) ∧
      Agree .onePass g .empty ["c", "b"] (run ⟨.onePass, .firstStarted, true⟩ g ["c", "b"] .empty).1
        (run ⟨.onePass, fun step => step + 1, true⟩ g ["c", "b"] .empty).1 := by
  intro pack g
  have hlegal : g.Legal g.names := by
    refine ⟨List.not_mem_nil, ⟨_, rfl, ?_⟩, ?_, ⟨_, rfl, ?_⟩, ?_, ⟨_, rfl, ?_⟩, trivial⟩ <;> decide
  have hfree : ∀ n, g.committed? n = none := by
    intro n
    unfold Graph.committed?
    cases htask : g.get? n with
    | none => rfl
    | some t =>
      have hentry := (Table.get?_eq_some_iff _ _ _).1 htask
      have hworks : ∀ e ∈ g.tasks.entries, e.2.committed? = none := by
        change ∀ e ∈ [_, _, _], _
        simp only [List.forall_mem_cons]
        exact ⟨rfl, rfl, rfl, List.forall_mem_nil _⟩
      exact hworks (n, t) hentry
  have hvalid := hlegal.validate_eq_ok
  have hall : (["c", "b"].find? fun t => !g.contains t) = none := by decide
  have hagree := run_confluent hvalid hfree .onePass .empty ["c", "b"] .firstStarted
    (fun step => step + 1) true true
  rw [hall] at hagree
  exact ⟨hvalid, hfree, hagree⟩

/-- A target that is not in the graph is neither run nor the failure of a task. -/
theorem not_run_confluent_unknown_target :
    Graph.empty.validate = .ok () ∧ (∀ n, Graph.empty.committed? n = none) ∧
      ¬ Agree .onePass .empty .empty ["a"] (run .standard .empty ["a"] .empty).1
        (run .standard .empty ["a"] .empty).1 := by
  have hvalid : Graph.empty.validate = .ok () := Graph.Legal.validate_eq_ok trivial
  refine ⟨hvalid, fun n => rfl, ?_⟩
  have hrefused : standard.run .empty ["a"] .empty = (.error (.graph (.unknownTask "a")), .empty) :=
    run_unknown hvalid (List.forall_mem_nil _) List.not_mem_nil
  rw [hrefused]
  rintro ⟨n, cause, n', cause', heq, -⟩
  cases heq

end Engine

end ColumnFlow
