import ColumnFlow.Proofs.Arrays.Nesting
import ColumnFlow.Proofs.Builtins
import ColumnFlow.Proofs.Linking.Edges
import ColumnFlow.Proofs.Reports

/-!
# Runs keep arrays consistent

If every array that an environment binds is consistent, so is every array that a run of builtin
functions computes, in whatever order its tasks report and whether or not one of them fails. What a
task is started with, what it reports and what is bound are values in which all arrays are
consistent.
-/

namespace ColumnFlow

/-- Every array of the bound values is consistent. -/
def Environment.WellFormed (env : Environment) : Prop :=
  ∀ x v, env.get? x = some v → v.WellFormed

/-- The tasks call functions of the registry only. -/
def Graph.CallsOnly (registry : Registry) (g : Graph) : Prop :=
  ∀ n t f, g.get? n = some t → t.work = .call f → ∃ name, registry.get? name = some f

/-! ## Evaluation -/

/-- An evaluated text has a value in which all arrays are consistent. -/
theorem wellFormed_of_evaluateText {text : String} {env : Environment} {v : Value}
    (hevaluated : evaluateText text env = .ok v) : v.WellFormed := by
  obtain ⟨e, -, hevaluated⟩ := bind_eq_ok_iff.1 hevaluated
  obtain ⟨resolved, -, hevaluated⟩ := bind_eq_ok_iff.1 hevaluated
  obtain ⟨aligned, -, hevaluated⟩ := bind_eq_ok_iff.1 hevaluated
  obtain ⟨operand, -, hevaluated⟩ := bind_eq_ok_iff.1 hevaluated
  cases operand with
  | scalar x =>
    cases hevaluated
    trivial
  | column leaves =>
    obtain ⟨a, hrebuilt, hevaluated⟩ := bind_eq_ok_iff.1 hevaluated
    cases hevaluated
    exact Leveled.consistent_of_rebuild (mapError_eq_ok_iff.1 hrebuilt)

/-! ## Tasks -/

section

variable {env : Environment} {results : String → Option Value}

mutual

/-- Arguments resolve to consistent values. -/
theorem Arg.wellFormed_resolve (hbound : env.WellFormed)
    (hknown : ∀ n v, results n = some v → v.WellFormed) :
    (a : Arg) → {v : Value} → a.resolve env results = .ok v → v.WellFormed
  | .ref task, v, hok => by
    rw [Arg.resolve] at hok
    cases hresult : results task with
    | none =>
      rw [hresult] at hok
      cases hok
    | some w =>
      rw [hresult] at hok
      cases hok
      exact hknown task v hresult
  | .column name, v, hok => by
    rw [Arg.resolve] at hok
    cases hvalue : env.get? name with
    | none =>
      rw [hvalue] at hok
      cases hok
    | some w =>
      rw [hvalue] at hok
      cases hok
      exact hbound name v hvalue
  | .literal value, v, hok => by
    cases hok
    cases value <;> trivial
  | .absent, v, hok => by
    cases hok
    trivial
  | .tuple items, v, hok => by
    rw [Arg.resolve] at hok
    obtain ⟨vs, hall, hok⟩ := bind_eq_ok_iff.1 hok
    cases hok
    exact Value.wellFormedAll_iff.2 (Arg.wellFormed_resolveAll hbound hknown items hall)

theorem Arg.wellFormed_resolveAll (hbound : env.WellFormed)
    (hknown : ∀ n v, results n = some v → v.WellFormed) :
    (as : List Arg) → {vs : List Value} → Arg.resolveAll env results as = .ok vs →
      ∀ v ∈ vs, v.WellFormed
  | [], vs, hok => by
    cases hok
    exact List.forall_mem_nil _
  | a :: as, vs, hok => by
    obtain ⟨v, ws, hfirst, hrest, rfl⟩ := Arg.resolveAll_eq_ok_iff.1 hok
    exact List.forall_mem_cons.2 ⟨Arg.wellFormed_resolve hbound hknown a hfirst,
      Arg.wellFormed_resolveAll hbound hknown as hrest⟩

end

/-- A task that calls builtin functions only computes a value with consistent arrays from such
values. -/
theorem Task.wellFormed_value {t : Task} {v : Value}
    (hcalls : ∀ f, t.work = .call f → ∃ name, Registry.builtins.get? name = some f)
    (hbound : env.WellFormed) (hknown : ∀ n v, results n = some v → v.WellFormed)
    (hok : t.value .onePass results env = .ok v) : v.WellFormed := by
  obtain ⟨work, args, after⟩ := t
  cases work with
  | constant value =>
    cases hok
    cases value <;> trivial
  | eval text =>
    rw [Task.value_eval] at hok
    exact wellFormed_of_evaluateText (mapError_eq_ok_iff.1 hok)
  | call f =>
    obtain ⟨name, hfunction⟩ := hcalls f rfl
    rw [Task.value_call] at hok
    obtain ⟨vs, hresolved, happlied⟩ := bind_eq_ok_iff.1 hok
    have hkeeps := Builtin.all_keeps (Arg.wellFormed_resolveAll hbound hknown args hresolved)
      (mem_of_get?_builtins hfunction)
    dsimp only at hkeeps
    rw [happlied] at hkeeps
    exact hkeeps
  | commit target =>
    cases args with
    | nil => cases hok
    | cons source rest =>
      rw [Task.value_commit] at hok
      exact Arg.wellFormed_resolve hbound hknown source hok

theorem Task.wellFormed_bind {t : Task} {v : Value} (hbound : env.WellFormed) (h : v.WellFormed) :
    (t.bind v env).WellFormed := by
  unfold Task.bind
  split
  · intro x w hvalue
    rw [Table.get?_insert] at hvalue
    split at hvalue
    · cases hvalue
      exact h
    · exact hbound x w hvalue
  · exact hbound

end

/-! ## Runs -/

open Progress

variable {p : Plan} {env env' : Environment} {s : Progress} {f : Flight} {v : Value}
variable {flights others : List Flight}

/-- A task that is started with values whose arrays are consistent. -/
def Flight.WellFormed (f : Flight) : Prop := ∀ n v, f.inputs.get? n = some v → v.WellFormed

/-- All values that a run has come to have consistent arrays only. -/
structure Progress.WellFormed (s : Progress) : Prop where
  results : ∀ n v, s.results.get? n = some v → v.WellFormed
  env : s.env.WellFormed
  flights : ∀ f ∈ s.inFlight, f.WellFormed

/-- A task that is performed gives a consistent value and leaves a consistent environment. -/
theorem perform_wellFormed (hcalls : p.graph.CallsOnly .builtins) (hbound : env.WellFormed)
    (h : f.WellFormed) (hok : perform .onePass p env f = .ok (v, env')) :
    v.WellFormed ∧ env'.WellFormed := by
  unfold perform at hok
  cases htask : p.graph.get? f.name with
  | none =>
    rw [htask] at hok
    cases hok
  | some t =>
    rw [htask] at hok
    have hran := mapError_eq_ok_iff.1 hok
    rw [Task.run_eq] at hran
    obtain ⟨w, hvalue, heq⟩ := map_eq_ok_iff.1 hran
    cases heq
    have hown := Task.wellFormed_value (fun g hwork => hcalls f.name t g htask hwork) hbound
      h hvalue
    exact ⟨hown, Task.wellFormed_bind hbound hown⟩

theorem inputsOf_wellFormed {results : Table Value} {n : String}
    (hknown : ∀ n v, results.get? n = some v → v.WellFormed) :
    Flight.WellFormed ⟨n, p.inputsOf results n⟩ := fun d v hinput =>
  hknown d v (Plan.get?_inputsOf_eq_some_iff.1 hinput).2

theorem initial_wellFormed (hbound : env.WellFormed) : (initial p env).WellFormed := by
  unfold Progress.initial
  rw [foldl_start]
  refine ⟨fun n v hresult => (by cases hresult), hbound, fun f hmem => ?_⟩
  obtain ⟨n, -, rfl⟩ := List.mem_map.1 hmem
  exact inputsOf_wellFormed fun n v hresult => by cases hresult

/-- Delivering a report keeps everything consistent. -/
theorem Progress.WellFormed.deliver {place : Nat} (h : s.WellFormed)
    (hpicked : pick? s.inFlight place = some (f, others)) (hown : v.WellFormed)
    (hbound : env'.WellFormed) :
    (deliver p { s with inFlight := others, env := env' } f.name v).WellFormed := by
  obtain ⟨ns, hinFlight, hresults, henv⟩ := @announce_starts p
    { s with inFlight := others, env := env', results := s.results.insert f.name v }
    (p.dependents f.name)
  have hknown : ∀ n w, (s.results.insert f.name v).get? n = some w → w.WellFormed := by
    intro n w hresult
    rw [Table.get?_insert] at hresult
    split at hresult
    · cases hresult
      exact hown
    · exact h.results n w hresult
  refine ⟨?_, ?_, ?_⟩
  · rw [Progress.deliver, hresults]
    exact hknown
  · rw [Progress.deliver, henv]
    exact hbound
  · rw [Progress.deliver, hinFlight]
    refine List.forall_mem_append.2 ⟨fun g hmem => ?_, List.forall_mem_map.2 fun n _ => ?_⟩
    · exact h.flights g (mem_of_mem_others hpicked hmem)
    · exact inputsOf_wellFormed hknown

/-- Tasks that are still in flight when another one has failed bind such values as well. -/
theorem drain_wellFormed {order : ReportOrder} {step : Nat} (hcalls : p.graph.CallsOnly .builtins)
    (hbound : env.WellFormed) (h : ∀ f ∈ flights, f.WellFormed) :
    (drain .onePass p order step env flights).WellFormed := by
  fun_induction drain .onePass p order step env flights with
  | case1 => exact hbound
  | case2 step env flights f others hpicked env' ih =>
    refine ih ?_ fun g hmem => h g (mem_of_mem_others hpicked hmem)
    cases hperformed : perform .onePass p env f with
    | error e => simpa [env', hperformed] using hbound
    | ok r =>
      have hleft := (perform_wellFormed hcalls hbound (h f (mem_of_pick? hpicked)) hperformed).2
      simpa [env', hperformed] using hleft

/-- A run that goes on to its end keeps everything consistent. -/
theorem Progress.WellFormed.finish {order : ReportOrder} {step left : Nat}
    (hcalls : p.graph.CallsOnly .builtins) (h : s.WellFormed) :
    (∀ results, (s.finish .onePass p order step left).1 = .ok results →
      ∀ n v, results.get? n = some v → v.WellFormed) ∧
      (s.finish .onePass p order step left).2.WellFormed := by
  induction left generalizing s step with
  | zero =>
    refine ⟨fun results heq => ?_, h.env⟩
    cases heq
    exact h.results
  | succ left ih =>
    unfold Progress.finish
    cases hpicked : pick? s.inFlight (order step) with
    | none => exact ⟨fun results heq => (by cases heq), h.env⟩
    | some r =>
      obtain ⟨f, others⟩ := r
      have hown := h.flights f (mem_of_pick? hpicked)
      dsimp only
      cases hperformed : perform .onePass p s.env f with
      | error e =>
        refine ⟨fun results heq => (by cases heq), drain_wellFormed hcalls h.env fun g hmem => ?_⟩
        exact h.flights g (mem_of_mem_others hpicked hmem)
      | ok r =>
        obtain ⟨v, env'⟩ := r
        obtain ⟨hvalue, hbound⟩ := perform_wellFormed hcalls h.env hown hperformed
        exact ih (h.deliver hpicked hvalue hbound)

/-- What is reported in a run has consistent arrays only. -/
theorem Logged.wellFormed {log : List Event} (hcalls : p.graph.CallsOnly .builtins)
    (hbound : env.WellFormed) (hlogged : Logged p env (performs .onePass p) log s) :
    s.WellFormed ∧ ∀ n v, .reported n v ∈ log → v.WellFormed := by
  induction hlogged with
  | initial => exact ⟨initial_wellFormed hbound, fun n v hmem => by simp at hmem⟩
  | @report log s place f others started v env' _ hpicked hperformed _ ih =>
    obtain ⟨h, hreported⟩ := ih
    obtain ⟨hvalue, hbound'⟩ :=
      perform_wellFormed hcalls h.env (h.flights f (mem_of_pick? hpicked)) hperformed
    refine ⟨h.deliver hpicked hvalue hbound', fun n w hmem => ?_⟩
    rcases List.mem_append.1 hmem with hold | hnew
    · exact hreported n w hold
    · have heqs : n = f.name ∧ w = v := by simpa using hnew
      exact heqs.2 ▸ hvalue

/-- A run of builtin functions keeps everything consistent. -/
theorem Engine.wellFormed_run {g : Graph} {targets : List String} {order : ReportOrder}
    {builtins : Bool} (hcalls : g.CallsOnly .builtins) (hbound : env.WellFormed) :
    (∀ results, (run ⟨.onePass, order, builtins⟩ g targets env).1 = .ok results →
      ∀ n v, results.get? n = some v → v.WellFormed) ∧
      (run ⟨.onePass, order, builtins⟩ g targets env).2.WellFormed := by
  unfold run
  cases hplanned : plan g targets with
  | error e => exact ⟨fun results heq => (by cases heq), hbound⟩
  | ok p =>
    have hsame : p.graph = g := by
      obtain ⟨_, -, hplanned⟩ := bind_eq_ok_iff.1 hplanned
      obtain ⟨required, -, hplanned⟩ := bind_eq_ok_iff.1 hplanned
      cases hplanned
      rfl
    subst hsame
    exact (initial_wellFormed hbound).finish hcalls

/-! ## Stages -/

section

variable {registry : Registry} {definitions : List (String × String)} {linked : Linked}

/-- Compiled tasks call functions that were looked up. -/
theorem Emits.calls {parts : List Part} {args : List Arg} {code : List (String × Task)}
    (h : Emits registry parts args code) :
    ∀ entry ∈ code, ∀ f, entry.2.work = .call f → ∃ name, registry.get? name = some f := by
  induction h with
  | none | omitted => exact List.forall_mem_nil _
  | more _ _ ih ih' => exact List.forall_mem_append.2 ⟨ih, ih'⟩
  | constant | eval => exact List.forall_mem_singleton.2 fun f hwork => by cases hwork
  | call _ hfunction _ ih =>
    refine List.forall_mem_append.2 ⟨ih, List.forall_mem_singleton.2 fun g hwork => ?_⟩
    cases hwork
    exact ⟨_, hfunction⟩
  | index _ ih | given _ ih | slice _ ih => exact ih

theorem link_callsOnly (haccepted : link definitions registry = .ok linked) :
    linked.graph.CallsOnly registry := by
  intro n t f htask hwork
  have hmem := Graph.mem_names_of_get? htask
  rw [← linkedUpto_length haccepted] at hmem
  obtain ⟨k, hlt, hown⟩ := exists_taskOf_of_mem hmem
  obtain ⟨l, d, e, part, output, names, l', hplaced⟩ := exists_placed haccepted hlt
  rcases hplaced.taskOf_iff.1 hown with hmem | rfl
  · obtain ⟨t', after, htask', -, htask'', -⟩ := hplaced.part_task hmem
    cases htask.symm.trans htask''
    exact hplaced.defined.compiled.emits.calls (n, t')
      ((Table.get?_eq_some_iff _ _ _).1 htask') f hwork
  · obtain ⟨after, htask', -⟩ := hplaced.commit_task
    cases htask.symm.trans htask'
    cases hwork

/-- A stage keeps everything consistent. -/
theorem Stage.wellFormed_runWith {stage : Stage} {order : ReportOrder} {builtins : Bool}
    (hbound : env.WellFormed) :
    (∀ returned, (stage.runWith ⟨.onePass, order, builtins⟩ .builtins env).1 = .ok returned →
      ∀ x v, (x, v) ∈ returned → v.WellFormed) ∧
      (stage.runWith ⟨.onePass, order, builtins⟩ .builtins env).2.WellFormed := by
  unfold runWith
  cases haccepted : link stage.definitions .builtins with
  | error e => exact ⟨fun returned heq => (by cases heq), hbound⟩
  | ok linked =>
    obtain ⟨hvalues, hleft⟩ := @Engine.wellFormed_run env linked.graph linked.commitTasks order
      builtins (link_callsOnly haccepted) hbound
    refine ⟨fun returned heq x v hmem => ?_, hleft⟩
    obtain ⟨results, hran, heq⟩ := bind_eq_ok_iff.1 heq
    obtain ⟨target, -, hfound⟩ := (mem_of_mapM_eq_ok heq (x, v)).1 hmem
    split at hfound
    · next w hcommitted =>
      cases hfound
      obtain ⟨c, -, hresult⟩ := Option.bind_eq_some_iff.1 hcommitted
      exact hvalues results (mapError_eq_ok_iff.1 hran) c v hresult
    · cases hfound

end

/-! ## Builtin functions and their runs -/

/-- On values with consistent arrays, builtin functions neither fault nor fail for lengths that do
not add up, and their results are such values. The sums and columns that they index are there. So
whatever is run from an environment of such values computes and binds nothing else. -/
theorem builtins_keep_consistent :
    (∀ name apply, (name, apply) ∈ Builtin.all → ∀ args : List Value, (∀ v ∈ args, v.WellFormed) →
      ((∀ v ∈ args, v.Countable) → ∀ fault, apply args ≠ .error (.fault fault)) ∧
      (∀ level expected found, apply args ≠
        .error (.error (.call (.shape (.countMismatch level expected found))))) ∧
      (∀ a, .array a ∈ args → a.SumsInside) ∧ ∀ v, apply args = .ok v → v.WellFormed) ∧
    (∀ a b aligned, broadcast [("lhs", a), ("rhs", b)] = .ok aligned →
      ∃ left right, aligned.columns = [("lhs", left), ("rhs", right)]) ∧
    ∀ (order : ReportOrder) (builtins : Bool) (env : Environment), env.WellFormed →
      (∀ (g : Graph) (targets : List String), g.CallsOnly .builtins →
        (∀ p log s, p.graph = g → Logged p env (performs .onePass p) log s →
          s.env.WellFormed ∧ ∀ n v, .reported n v ∈ log → v.WellFormed) ∧
        (∀ results, (Engine.run ⟨.onePass, order, builtins⟩ g targets env).1 = .ok results →
          ∀ n v, results.get? n = some v → v.WellFormed) ∧
        (Engine.run ⟨.onePass, order, builtins⟩ g targets env).2.WellFormed) ∧
      ∀ stage : Stage,
        (∀ returned, (stage.runWith ⟨.onePass, order, builtins⟩ .builtins env).1 = .ok returned →
          ∀ x v, (x, v) ∈ returned → v.WellFormed) ∧
        (stage.runWith ⟨.onePass, order, builtins⟩ .builtins env).2.WellFormed := by
  refine ⟨fun name apply hmem args h => ?_, fun a b aligned => Jagged.columns_of_broadcast_pair, ?_⟩
  · have hkeeps := Builtin.all_keeps h hmem
    dsimp only at hkeeps
    refine ⟨fun hcountable fault heq => ?_, fun level expected found heq => ?_, fun a hmem => ?_,
      fun v heq => ?_⟩
    · rw [heq] at hkeeps
      exact hkeeps hcountable
    · rw [heq] at hkeeps
      exact hkeeps trivial
    · exact Jagged.sumsInside_of_consistent (h (.array a) hmem)
    · rw [heq] at hkeeps
      exact hkeeps
  · intro order builtins env hbound
    refine ⟨fun g targets hcalls => ⟨?_, Engine.wellFormed_run hcalls hbound⟩, fun stage =>
      Stage.wellFormed_runWith hbound⟩
    rintro p log s rfl hlogged
    obtain ⟨h, hreported⟩ := hlogged.wellFormed hcalls hbound
    exact ⟨h.env, hreported⟩

/-- A slice with bounds far outside of a nested array, and an environment that binds the array
within a tuple. -/
theorem builtins_keep_consistent_slice :
    let a : Jagged := .nested [2, 0, 1] (.flat [1.0, 2.0, 3.0])
    let args : List Value := [.array a, .tuple [.nothing, .scalar (-1e300), .scalar (-2.0)]]
    let env : Environment := Table.empty.insert "x" (.tuple [.array a])
    ((∀ v ∈ args, v.WellFormed) ∧ (∀ v ∈ args, v.Countable) ∧
      (∀ fault, Builtin.slice args ≠ .error (.fault fault)) ∧
      ∀ v, Builtin.slice args = .ok v → v.WellFormed) ∧
    env.WellFormed ∧ ∀ (order : ReportOrder) (stage : Stage),
      (stage.runWith ⟨.onePass, order, true⟩ .builtins env).2.WellFormed := by
  intro a args env
  have hconsistent : a.Consistent := by decide
  have h : ∀ v ∈ args, v.WellFormed :=
    List.forall_mem_cons.2 ⟨hconsistent, List.forall_mem_singleton.2 ⟨trivial, trivial, trivial,
    trivial⟩⟩
  have hfew : (3 : Int) ≤ Int64Range.greatest := by decide
  have hcountable : ∀ v ∈ args, v.Countable :=
    List.forall_mem_cons.2 ⟨hfew, List.forall_mem_singleton.2 trivial⟩
  have hbound : env.WellFormed := by
    intro x v hvalue
    rw [Table.get?_insert] at hvalue
    split at hvalue
    · cases hvalue
      exact ⟨hconsistent, trivial⟩
    · cases hvalue
  obtain ⟨hfunctions, -, hruns⟩ := builtins_keep_consistent
  have hnamed : ("slice", Builtin.slice) ∈ Builtin.all := by
    refine List.mem_append_right _ ?_
    simp only [List.mem_cons, true_or, or_true]
  obtain ⟨hfaultless, -, -, hkept⟩ := hfunctions _ _ hnamed args h
  exact ⟨⟨h, hcountable, hfaultless hcountable, hkept⟩, hbound, fun order stage =>
    ((hruns order true env hbound).2 stage).2⟩

end ColumnFlow
