import ColumnFlow.Proofs.Execution.Orders

/-!
# Runs of legal lists

`Graph.execute` runs tasks one after the other. What a run leaves can be read off the values
of its tasks: the result of a task is its value, and a variable is bound to the value of its
last commit. Where conflicting tasks are ordered, a value that one legal run gives to a task is
given to it by every legal run.
-/

namespace ColumnFlow

/-- The results so far and the environment. -/
structure Store where
  results : Table Value
  env : Environment

/-- Nothing has run in the environment. -/
def Store.start (env : Environment) : Store := ⟨.empty, env⟩

namespace Graph

/-- Run one task and keep its result. -/
def runTask (evaluator : Evaluator) (g : Graph) (s : Store) (n : String) :
    Except TaskError Store :=
  match g.get? n with
  | none => .error .notInGraph
  | some t => do
    let (v, env) ← (t.run evaluator s.results.get? s.env).mapError Failure.asTaskError
    return ⟨s.results.insert n v, env⟩

/-- Run tasks one after the other. -/
def execute (evaluator : Evaluator) (g : Graph) (s : Store) : List String → Except TaskError Store
  | [] => .ok s
  | n :: ns => do g.execute evaluator (← g.runTask evaluator s n) ns

variable {g : Graph} {evaluator : Evaluator} {s s' : Store} {env : Environment}

/-! ## Single tasks -/

/-- A task that runs leaves its value as its result, and its binding if it is a commit. -/
theorem runTask_eq_ok_iff {n : String} :
    g.runTask evaluator s n = .ok s' ↔ ∃ t v, g.get? n = some t ∧
      t.value evaluator s.results.get? s.env = .ok v ∧
      s' = ⟨s.results.insert n v, t.bind v s.env⟩ := by
  unfold runTask
  cases hknown : g.get? n with
  | none => simp
  | some t =>
    dsimp only
    rw [Task.run_eq]
    constructor
    · intro h
      obtain ⟨⟨v, env⟩, hran, hrest⟩ := bind_eq_ok_iff.1 h
      obtain ⟨w, hvalue, heq⟩ := map_eq_ok_iff.1 (mapError_eq_ok_iff.1 hran)
      cases heq
      cases hrest
      exact ⟨t, v, rfl, hvalue, rfl⟩
    · rintro ⟨_, v, ⟨⟩, hvalue, rfl⟩
      rw [hvalue]
      rfl

theorem execute_cons_eq_ok_iff {n : String} {ns : List String} :
    g.execute evaluator s (n :: ns) = .ok s' ↔
      ∃ m, g.runTask evaluator s n = .ok m ∧ g.execute evaluator m ns = .ok s' :=
  bind_eq_ok_iff

/-- Two lists are run one after the other. -/
theorem execute_append {first rest : List String} :
    g.execute evaluator s (first ++ rest) =
      g.execute evaluator s first >>= fun m => g.execute evaluator m rest := by
  induction first generalizing s with
  | nil => rfl
  | cons n ns ih =>
    rw [List.cons_append, execute, execute]
    cases g.runTask evaluator s n with
    | error e => rfl
    | ok m => exact ih

theorem execute_append_eq_ok_iff {first rest : List String} :
    g.execute evaluator s (first ++ rest) = .ok s' ↔
      ∃ m, g.execute evaluator s first = .ok m ∧ g.execute evaluator m rest = .ok s' := by
  rw [execute_append]
  exact bind_eq_ok_iff

/-- A run gives results to its own tasks alone. -/
theorem results_of_not_mem {order : List String} {n : String}
    (hran : g.execute evaluator s order = .ok s') (hother : n ∉ order) :
    s'.results.get? n = s.results.get? n := by
  induction order generalizing s with
  | nil =>
    cases hran
    rfl
  | cons m ms ih =>
    obtain ⟨mid, hfirst, hrest⟩ := execute_cons_eq_ok_iff.1 hran
    obtain ⟨t, v, _, _, rfl⟩ := runTask_eq_ok_iff.1 hfirst
    rw [List.mem_cons, not_or] at hother
    rw [ih hrest hother.2, Table.get?_insert, if_neg hother.1]

/-- A larger graph runs the tasks of the smaller one in the same way. -/
theorem Extends.execute_eq {g' : Graph} {order : List String} (h : g.Extends g')
    (hknown : ∀ n ∈ order, n ∈ g.names) :
    g'.execute evaluator s order = g.execute evaluator s order := by
  induction order generalizing s with
  | nil => rfl
  | cons n ns ih =>
    rw [List.forall_mem_cons] at hknown
    rw [execute, execute, runTask, runTask, h.get?_eq hknown.1]
    exact bind_congr fun m => ih hknown.2

/-- Some task of the list fails when those in front of it have run. -/
def MeetsFailure (evaluator : Evaluator) (g : Graph) (s : Store) (order : List String) : Prop :=
  ∃ front n back t m cause, order = front ++ n :: back ∧ g.get? n = some t ∧
    g.execute evaluator s front = .ok m ∧
      t.run evaluator m.results.get? m.env = .error cause

/-- A run that does not succeed meets a task that fails. -/
theorem meetsFailure_of_not_ok {order : List String} (hknown : ∀ n ∈ order, n ∈ g.names)
    (hfails : ∀ s', g.execute evaluator s order ≠ .ok s') : g.MeetsFailure evaluator s order := by
  induction order generalizing s with
  | nil => exact absurd rfl (hfails s)
  | cons n ns ih =>
    rw [List.forall_mem_cons] at hknown
    obtain ⟨t, htask⟩ := mem_names_iff.1 hknown.1
    cases hran : t.run evaluator s.results.get? s.env with
    | error cause => exact ⟨[], n, ns, t, s, cause, rfl, htask, rfl, hran⟩
    | ok r =>
      have hfirst : g.runTask evaluator s n = .ok ⟨s.results.insert n r.1, r.2⟩ := by
        rw [runTask, htask]
        dsimp only
        rw [hran]
        rfl
      obtain ⟨front, m, back, t', s', cause, rfl, htask', hrest, hfailed⟩ := ih hknown.2
        fun s' hrest => hfails s' (execute_cons_eq_ok_iff.2 ⟨_, hfirst, hrest⟩)
      refine ⟨n :: front, m, back, t', s', cause, rfl, htask', ?_, hfailed⟩
      exact execute_cons_eq_ok_iff.2 ⟨_, hfirst, hrest⟩

/-! ## What a run leaves -/

/-- The store after the tasks of a list, given the value of each. -/
structure Leaves (g : Graph) (env : Environment) (val : String → Value) (order : List String)
    (s : Store) : Prop where
  results : ∀ n, s.results.get? n = if n ∈ order then some (val n) else none
  env : ∀ x, s.env.get? x = (g.lastCommit x order).elim (env.get? x) fun k => some (val k)

variable {val : String → Value}

theorem leaves_start : g.Leaves env val [] (.start env) := ⟨fun _ => rfl, fun _ => rfl⟩

/-- One more task leaves its value, and its binding if it is a commit. -/
theorem Leaves.snoc {order : List String} {n : String} {t : Task} (h : g.Leaves env val order s)
    (hknown : g.get? n = some t) :
    g.Leaves env val (order ++ [n]) ⟨s.results.insert n (val n), t.bind (val n) s.env⟩ := by
  constructor
  · intro m
    rw [Table.get?_insert, h.results]
    by_cases heq : m = n
    · subst heq
      simp
    · simp [heq]
  · intro x
    have hcommits : g.committed? n = t.committed? := by rw [committed?, hknown]; rfl
    rw [lastCommit_snoc, hcommits]
    unfold Task.bind
    cases htarget : t.committed? with
    | none => simpa using h.env x
    | some y =>
      by_cases heq : x = y
      · subst heq
        simp [Table.get?_insert]
      · simpa [Table.get?_insert, heq, Ne.symm heq] using h.env x

/-- A legal run gives the task the value. -/
def Gives (evaluator : Evaluator) (g : Graph) (env : Environment) (val : String → Value)
    (n : String) : Prop :=
  ∃ before t s, g.Legal (before ++ [n]) ∧ g.get? n = some t ∧ g.Leaves env val before s ∧
    t.value evaluator s.results.get? s.env = .ok (val n)

/-- A run that succeeds gives its values to the tasks, and leaves them. -/
theorem gives_of_execute {done order : List String} (hlegal : g.Legal (done ++ order))
    (hbefore : g.Leaves env val done s) (hran : g.execute evaluator s order = .ok s')
    (hvalues : ∀ n ∈ order, s'.results.get? n = some (val n)) :
    g.Leaves env val (done ++ order) s' ∧ ∀ n ∈ order, g.Gives evaluator env val n := by
  induction order generalizing done s with
  | nil =>
    cases hran
    simpa using hbefore
  | cons n ns ih =>
    obtain ⟨mid, hfirst, hrest⟩ := execute_cons_eq_ok_iff.1 hran
    obtain ⟨t, v, hknown, hvalue, rfl⟩ := runTask_eq_ok_iff.1 hfirst
    have hlast : n ∉ ns := (List.nodup_cons.1 (List.nodup_append.1 hlegal.nodup).2.1).1
    have hsame : v = val n := by
      have hresult := hvalues n List.mem_cons_self
      rw [results_of_not_mem hrest hlast, Table.get?_insert, if_pos rfl] at hresult
      exact Option.some.inj hresult
    subst hsame
    have happend : done ++ n :: ns = done ++ [n] ++ ns := by simp
    rw [happend] at hlegal ⊢
    obtain ⟨hleaves, hgives⟩ := ih hlegal (hbefore.snoc hknown) hrest
      fun m hmem => hvalues m (List.mem_cons_of_mem _ hmem)
    refine ⟨hleaves, ?_⟩
    intro m hmem
    rcases List.mem_cons.1 hmem with rfl | hmem
    · exact ⟨done, t, s, (legal_append.1 hlegal).1, hknown, hbefore, hvalue⟩
    · exact hgives m hmem

/-- The values of a run. -/
theorem exists_values {order : List String} (hlegal : g.Legal order)
    (hran : g.execute evaluator (.start env) order = .ok s') :
    ∃ val, g.Leaves env val order s' ∧ ∀ n ∈ order, g.Gives evaluator env val n := by
  let val (n : String) : Value := (s'.results.get? n).getD .nothing
  have hvalues : ∀ n ∈ order, s'.results.get? n = some (val n) := by
    intro n hmem
    obtain ⟨before, after, rfl⟩ := List.append_of_mem hmem
    obtain ⟨mid, _, hrest⟩ := execute_append_eq_ok_iff.1 hran
    obtain ⟨m, hfirst, hrest⟩ := execute_cons_eq_ok_iff.1 hrest
    obtain ⟨t, v, _, _, rfl⟩ := runTask_eq_ok_iff.1 hfirst
    have hlast : n ∉ after := (List.nodup_cons.1 (List.nodup_append.1 hlegal.nodup).2.1).1
    have hresult : s'.results.get? n = some v := by
      rw [results_of_not_mem hrest hlast, Table.get?_insert, if_pos rfl]
    rw [hresult]
    simp only [val, hresult, Option.getD_some]
  exact ⟨val, gives_of_execute hlegal leaves_start hran hvalues⟩

/-! ## Independence of the order -/

/-- What one legal run gives to a task, every legal run does. -/
theorem Gives.value {n : String} {done : List String} (hordered : g.Ordered)
    (hframed : ∀ t, g.get? n = some t → t.Framed evaluator) (h : g.Gives evaluator env val n)
    (hlegal : g.Legal (done ++ [n])) (hleaves : g.Leaves env val done s) :
    ∃ t, g.get? n = some t ∧ t.value evaluator s.results.get? s.env = .ok (val n) := by
  obtain ⟨before, t, s', hlegal', hknown, hleaves', hvalue⟩ := h
  refine ⟨t, hknown, hframed t hknown ?_ ?_ hvalue⟩
  · intro r hmem
    have hneed := Task.refs_subset_dependencies hmem
    have hinside {order : List String} (hl : g.Legal (order ++ [n])) : r ∈ order := by
      obtain ⟨_, _, t', hknown', hdeps⟩ := legal_snoc.1 hl
      rw [hknown] at hknown'
      cases hknown'
      exact hdeps r hneed
    rw [hleaves.results, hleaves'.results, if_pos (hinside hlegal), if_pos (hinside hlegal')]
  · intro c hmem
    have hreads : c ∈ g.columnsOf n := by
      rw [columnsOf, hknown]
      exact hmem
    rw [hleaves.env, hleaves'.env, lastCommit_of_reader hordered hreads hlegal' hlegal]

/-- Tasks that some legal run gives values can be run in every legal order, and get them. -/
theorem execute_of_gives {order : List String} (hordered : g.Ordered)
    (hframed : ∀ n t, g.get? n = some t → t.Framed evaluator) (hlegal : g.Legal order)
    (hgives : ∀ n ∈ order, g.Gives evaluator env val n) :
    ∃ s, g.execute evaluator (.start env) order = .ok s ∧ g.Leaves env val order s := by
  have hrun : ∀ (done order : List String) (s : Store), g.Legal (done ++ order) →
      (∀ n ∈ order, g.Gives evaluator env val n) → g.Leaves env val done s →
      ∃ s', g.execute evaluator s order = .ok s' ∧ g.Leaves env val (done ++ order) s' := by
    intro done order
    induction order generalizing done with
    | nil =>
      intro s _ _ hleaves
      exact ⟨s, rfl, by simpa using hleaves⟩
    | cons n ns ih =>
      intro s hlegal hgives hleaves
      have happend : done ++ n :: ns = done ++ [n] ++ ns := by simp
      rw [happend] at hlegal ⊢
      obtain ⟨t, hknown, hvalue⟩ := (hgives n List.mem_cons_self).value hordered (hframed n)
        (legal_append.1 hlegal).1 hleaves
      obtain ⟨s', hran, hafter⟩ := ih (done ++ [n]) _ hlegal
        (fun m hmem => hgives m (List.mem_cons_of_mem _ hmem)) (hleaves.snoc hknown)
      exact ⟨s', execute_cons_eq_ok_iff.2 ⟨_, runTask_eq_ok_iff.2 ⟨t, _, hknown, hvalue, rfl⟩,
        hran⟩, hafter⟩
  exact hrun [] order _ hlegal hgives leaves_start

/-- If one legal run succeeds, all those of tasks of it do, with the same values. -/
theorem execute_of_execute {order : List String} (hordered : g.Ordered)
    (hframed : ∀ n t, g.get? n = some t → t.Framed evaluator) (hlegal : g.Legal order)
    (hran : g.execute evaluator (.start env) order = .ok s) :
    ∃ val, g.Leaves env val order s ∧
      ∀ order', g.Legal order' → (∀ n ∈ order', n ∈ order) →
        ∃ s', g.execute evaluator (.start env) order' = .ok s' ∧ g.Leaves env val order' s' := by
  obtain ⟨val, hleaves, hgives⟩ := exists_values hlegal hran
  refine ⟨val, hleaves, fun order' hlegal' hinside => ?_⟩
  exact execute_of_gives hordered hframed hlegal' fun n hmem => hgives n (hinside n hmem)

/-- Runs of the same tasks leave the same bindings. -/
theorem Leaves.env_eq {order order' : List String} {s s' : Store} (hordered : g.Ordered)
    (hlegal : g.Legal order) (hlegal' : g.Legal order') (hsame : ∀ n, n ∈ order ↔ n ∈ order')
    (hleaves : g.Leaves env val order s) (hleaves' : g.Leaves env val order' s') (x : String) :
    s.env.get? x = s'.env.get? x := by
  rw [hleaves.env, hleaves'.env, lastCommit_congr hordered hlegal hlegal' fun k _ => hsame k]

/-- The tasks were added in a legal order, conflicting ones are ordered, and each has a value
that depends on its references and its variables alone. -/
structure Confluent (evaluator : Evaluator) (g : Graph) : Prop where
  legal : g.Legal g.names
  ordered : g.Ordered
  framed : ∀ n t, g.get? n = some t → t.Framed evaluator

/-- What runs in one legal order runs in every other one, with the same results. -/
theorem Confluent.execute_of_execute {order order' : List String}
    (hconfluent : g.Confluent evaluator) (hlegal : g.Legal order) (hlegal' : g.Legal order')
    (hinside : ∀ n ∈ order', n ∈ order) (hran : g.execute evaluator (.start env) order = .ok s) :
    ∃ s', g.execute evaluator (.start env) order' = .ok s' ∧
      ∀ n ∈ order', s'.results.get? n = s.results.get? n := by
  obtain ⟨val, hleaves, hevery⟩ :=
    Graph.execute_of_execute hconfluent.ordered hconfluent.framed hlegal hran
  obtain ⟨s', hran', hleaves'⟩ := hevery order' hlegal' hinside
  refine ⟨s', hran', fun n hmem => ?_⟩
  rw [hleaves.results, hleaves'.results, if_pos hmem, if_pos (hinside n hmem)]

/-- If every task has a value, every legal list runs. -/
theorem Confluent.execute_of_gives {order : List String} (hconfluent : g.Confluent evaluator)
    (hgives : ∀ n ∈ g.names, g.Gives evaluator env val n) (hlegal : g.Legal order) :
    ∃ s, g.execute evaluator (.start env) order = .ok s ∧ g.Leaves env val order s := by
  refine Graph.execute_of_gives hconfluent.ordered hconfluent.framed hlegal fun n hmem => ?_
  exact hgives n (hlegal.mem_names hmem)

end Graph

end ColumnFlow
