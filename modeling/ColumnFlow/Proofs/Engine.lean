import ColumnFlow.Proofs.Requirements
import ColumnFlow.Proofs.Scheduling
import ColumnFlow.Proofs.Validity
import ColumnFlow.Run

/-!
# Engine runs are legal runs

An engine that is asked for tasks of a graph runs a legal list of tasks, whatever the order of
reports. Where conflicting tasks are ordered, so that all legal lists agree, the engine gives
what running the whole graph in insertion order gives.
-/

namespace ColumnFlow

/-- Erasing repetitions leaves none. -/
theorem nodup_eraseDups (names : List String) : names.eraseDups.Nodup := by
  match names with
  | [] => exact List.nodup_nil
  | n :: ns =>
    rw [List.eraseDups_cons]
    refine List.nodup_cons.2 ⟨by simp, nodup_eraseDups (ns.filter _)⟩
termination_by names.length
decreasing_by exact Nat.lt_succ_of_le (List.length_filter_le _ _)

namespace Engine

variable {g : Graph} {targets : List String} {env : Environment}

/-! ## Plans of an engine -/

theorem required_ok (hclosed : g.Closed (g.Needed targets)) :
    ∃ required, targets.mapM g.requiredFor = .ok required ∧
      ∀ n, n ∈ required.flatten ↔ g.Needed targets n := by
  have heach : ∀ t ∈ targets, ∃ listed, g.requiredFor t = .ok listed ∧
      ∀ n, n ∈ listed ↔ g.Needed [t] n := fun t hmem =>
    Graph.requiredFor_ok (Graph.closed_needed fun n hneeded =>
      (hclosed n (hneeded.of_target hmem)).1)
  obtain ⟨required, hok⟩ := exists_mapM_eq_ok fun t hmem => (heach t hmem).imp fun _ h => h.1
  refine ⟨required, hok, fun n => ?_⟩
  rw [List.mem_flatten]
  constructor
  · rintro ⟨listed, hinside, hmem⟩
    obtain ⟨t, htarget, hfound⟩ := (mem_of_mapM_eq_ok hok listed).1 hinside
    obtain ⟨listed', hfound', hall⟩ := heach t htarget
    cases hfound.symm.trans hfound'
    exact ((hall n).1 hmem).of_target htarget
  · intro hneeded
    obtain ⟨t, htarget, hneeded⟩ := hneeded.exists_target
    obtain ⟨listed, hfound, hall⟩ := heach t htarget
    exact ⟨listed, (mem_of_mapM_eq_ok hok listed).2 ⟨t, htarget, hfound⟩, (hall n).2 hneeded⟩

/-- In a graph without cycles, tasks whose references resolve have a sound plan: what they
need. -/
theorem plan_ok (hacyclic : g.Acyclic) (hresolves : ∀ n, g.Needed targets n → n ∈ g.names) :
    ∃ p, plan g targets = .ok p ∧ p.graph = g ∧ p.Sound ∧
      ∀ n, n ∈ p.nodes ↔ g.Needed targets n := by
  have hclosed := Graph.closed_needed hresolves
  obtain ⟨order, hsorted⟩ := Graph.topologicalOrder_ok DigraphLibrary.depthFirst_lawful hacyclic
  obtain ⟨required, hok, hall⟩ := required_ok hclosed
  have hnodes (n : String) : n ∈ required.flatten.eraseDups ↔ g.Needed targets n :=
    List.mem_eraseDups.trans (hall n)
  have hknown : ∀ n ∈ required.flatten.eraseDups, n ∈ g.names :=
    fun n hmem => hresolves n ((hnodes n).1 hmem)
  have hdownward : ∀ n ∈ required.flatten.eraseDups, ∀ d ∈ g.dependenciesOf n,
      d ∈ required.flatten.eraseDups :=
    fun n hmem d hedge => (hnodes d).2 (((hnodes n).1 hmem).dependency hedge)
  refine ⟨⟨g, required.flatten.eraseDups⟩, ?_, rfl, ⟨nodup_eraseDups _, ?_, hdownward⟩, hnodes⟩
  · rw [plan, hsorted, hok]
    rfl
  · exact hacyclic.exists_legal hknown hdownward [] trivial

/-- An engine runs a legal list of tasks that has the targets in it. -/
theorem run_outcome (engine : Engine) (env : Environment) (hlegal : g.Legal g.names)
    (hknown : ∀ t ∈ targets, t ∈ g.names) :
    ∃ nodes, (∀ t ∈ targets, t ∈ nodes) ∧ g.Outcome engine.evaluator env nodes
      (engine.run g targets env).1 (engine.run g targets env).2 := by
  obtain ⟨p, hplanned, rfl, hsound, hnodes⟩ :=
    plan_ok hlegal.acyclic fun n => hlegal.mem_of_needed hknown
  refine ⟨p.nodes, fun t hmem => (hnodes t).2 (.inl hmem), ?_⟩
  rw [run, hplanned]
  exact Progress.outcome_of_sound hsound engine.order

theorem get_eq_ok_iff {engine : Engine} {target : String} {v : Value} :
    (engine.get g target env).1 = .ok v ↔
      ∃ results, (engine.run g [target] env).1 = .ok results ∧ results.get? target = some v := by
  unfold get
  generalize engine.run g [target] env = out
  obtain ⟨result, env'⟩ := out
  cases result with
  | error e =>
    refine iff_of_false (fun h => by cases h) ?_
    rintro ⟨_, ⟨⟩, _⟩
  | ok results =>
    change (Except.ok results >>= _) = _ ↔ _
    rw [ok_bind]
    cases hfound : results.get? target with
    | none =>
      refine iff_of_false (fun h => by cases h) ?_
      rintro ⟨_, ⟨⟩, hresult⟩
      rw [hfound] at hresult
      cases hresult
    | some w =>
      constructor
      · rintro ⟨⟩
        exact ⟨results, rfl, hfound⟩
      · rintro ⟨_, ⟨⟩, hresult⟩
        rw [hfound] at hresult
        cases hresult
        rfl

/-! ## Runs of confluent graphs -/

variable {evaluator : Evaluator} {val : String → Value}

/-- If a legal run gives every task a value, an engine gives the targets the same values. -/
theorem run_of_gives (hconfluent : g.Confluent evaluator) (reports : ReportOrder) (builtins : Bool)
    (hknown : ∀ t ∈ targets, t ∈ g.names) (hgives : ∀ n ∈ g.names, g.Gives evaluator env val n) :
    ∃ order results, g.Legal order ∧ (∀ t ∈ targets, t ∈ order) ∧
      (run ⟨evaluator, reports, builtins⟩ g targets env).1 = .ok results ∧
      g.Leaves env val order
        ⟨results, (run ⟨evaluator, reports, builtins⟩ g targets env).2⟩ := by
  obtain ⟨nodes, hown, houtcome⟩ :=
    run_outcome ⟨evaluator, reports, builtins⟩ env hconfluent.legal hknown
  cases hresult : (run ⟨evaluator, reports, builtins⟩ g targets env).1 with
  | error e =>
    rw [hresult] at houtcome
    obtain ⟨order, hlegal, _, hfails⟩ := houtcome
    obtain ⟨s, hran, _⟩ := hconfluent.execute_of_gives hgives hlegal
    exact absurd hran (hfails s)
  | ok results =>
    rw [hresult] at houtcome
    obtain ⟨order, hlegal, hall, hran⟩ := houtcome
    obtain ⟨s, hran', hleaves⟩ := hconfluent.execute_of_gives hgives hlegal
    cases hran.symm.trans hran'
    exact ⟨order, results, hlegal, fun t hmem => (hall t).2 (hown t hmem), rfl, hleaves⟩

end Engine

end ColumnFlow
