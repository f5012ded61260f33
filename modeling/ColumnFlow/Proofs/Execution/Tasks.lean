import ColumnFlow.Proofs.Except
import ColumnFlow.Task

/-!
# What a task depends on

A run of a task is a value and, for a commit, one binding. The value is a function of the
results that the arguments refer to and of the variables they read.
-/

namespace ColumnFlow

/-! ## Arguments -/

section

variable {env env' : Environment} {results results' : String → Option Value}

mutual

/-- An argument looks at the results it refers to and at the variables it reads, and at nothing
else. -/
theorem Arg.resolve_congr : (a : Arg) → (∀ r ∈ a.refs, results r = results' r) →
    (∀ c ∈ a.columns, env.get? c = env'.get? c) → a.resolve env results = a.resolve env' results'
  | .ref task, hrefs, _ => by rw [Arg.resolve, Arg.resolve, hrefs task (by simp [Arg.refs])]
  | .column name, _, hcolumns => by
    rw [Arg.resolve, Arg.resolve, hcolumns name (by simp [Arg.columns])]
  | .literal _, _, _ => rfl
  | .absent, _, _ => rfl
  | .tuple items, hrefs, hcolumns => by
    rw [Arg.resolve, Arg.resolve, Arg.resolveAll_congr items hrefs hcolumns]

theorem Arg.resolveAll_congr : (as : List Arg) → (∀ r ∈ Arg.refsAll as, results r = results' r) →
    (∀ c ∈ Arg.columnsAll as, env.get? c = env'.get? c) →
    Arg.resolveAll env results as = Arg.resolveAll env' results' as
  | [], _, _ => rfl
  | a :: as, hrefs, hcolumns => by
    simp only [Arg.refsAll, Arg.columnsAll, List.forall_mem_append] at hrefs hcolumns
    rw [Arg.resolveAll, Arg.resolveAll, Arg.resolve_congr a hrefs.1 hcolumns.1,
      Arg.resolveAll_congr as hrefs.2 hcolumns.2]

end

theorem Arg.resolveAll_eq_ok_iff {a : Arg} {as : List Arg} {vs : List Value} :
    Arg.resolveAll env results (a :: as) = .ok vs ↔
      ∃ v ws, a.resolve env results = .ok v ∧ Arg.resolveAll env results as = .ok ws ∧
        v :: ws = vs := by
  rw [Arg.resolveAll]
  constructor
  · intro h
    obtain ⟨v, hv, h⟩ := bind_eq_ok_iff.1 h
    obtain ⟨ws, hws, h⟩ := bind_eq_ok_iff.1 h
    cases h
    exact ⟨v, ws, hv, hws, rfl⟩
  · rintro ⟨v, ws, hv, hws, rfl⟩
    exact bind_eq_ok_iff.2 ⟨v, hv, bind_eq_ok_iff.2 ⟨ws, hws, rfl⟩⟩

theorem Arg.resolveAll_ref_eq_ok_iff {name : String} {v : Value} :
    Arg.resolveAll env results [.ref name] = .ok [v] ↔ results name = some v := by
  rw [resolveAll, resolve]
  cases results name with
  | none => exact iff_of_false (fun h => by cases h) (fun h => by cases h)
  | some w =>
    constructor
    · intro h
      cases h
      rfl
    · rintro ⟨⟩
      rfl

/-- Arguments are resolved from left to right. -/
theorem Arg.resolveAll_append {as bs : List Arg} {vs : List Value} :
    Arg.resolveAll env results (as ++ bs) = .ok vs ↔
      ∃ us ws, Arg.resolveAll env results as = .ok us ∧ Arg.resolveAll env results bs = .ok ws ∧
        us ++ ws = vs := by
  induction as generalizing vs with
  | nil => simp [Arg.resolveAll]
  | cons a as ih =>
    rw [List.cons_append, Arg.resolveAll_eq_ok_iff]
    constructor
    · rintro ⟨v, rest, hv, hrest, rfl⟩
      obtain ⟨us, ws, hus, hws, rfl⟩ := ih.1 hrest
      exact ⟨v :: us, ws, Arg.resolveAll_eq_ok_iff.2 ⟨v, us, hv, hus, rfl⟩, hws, rfl⟩
    · rintro ⟨us, ws, hus, hws, rfl⟩
      obtain ⟨v, rest, hv, hrest, rfl⟩ := Arg.resolveAll_eq_ok_iff.1 hus
      exact ⟨v, rest ++ ws, hv, ih.2 ⟨rest, ws, hrest, hws, rfl⟩, rfl⟩

end

/-! ## Values and bindings -/

namespace Task

/-- The value of a task, apart from what it does to the environment. -/
def value (evaluator : Evaluator) (results : String → Option Value) (env : Environment)
    (t : Task) : Answer Value :=
  (t.run evaluator results env).map Prod.fst

/-- The environment after a task: a commit binds its variable to the value. -/
def bind (t : Task) (v : Value) (env : Environment) : Environment :=
  match t.committed? with
  | some target => env.insert target v
  | none => env

variable {evaluator : Evaluator} {results results' : String → Option Value}
variable {env env' : Environment} {t : Task} {v : Value}

variable {args : List Arg} {after : List String}

theorem value_eval {expression : String} :
    value evaluator results env ⟨.eval expression, args, after⟩ = evaluator expression env := by
  unfold value run
  dsimp only
  cases evaluator expression env with
  | error e => rfl
  | ok v => rfl

theorem value_call {f : Function} : value evaluator results env ⟨.call f, args, after⟩ =
    Arg.resolveAll env results args >>= f.apply := by
  unfold value run
  dsimp only
  cases Arg.resolveAll env results args with
  | error e => rfl
  | ok vs =>
    change (f.apply vs >>= _ : Answer _).map _ = f.apply vs
    cases f.apply vs with
    | error e => rfl
    | ok v => rfl

theorem value_commit {target : String} {source : Arg} :
    value evaluator results env ⟨.commit target, source :: args, after⟩ =
      source.resolve env results := by
  unfold value run
  dsimp only
  cases source.resolve env results with
  | error e => rfl
  | ok v => rfl

/-- Running a task is computing its value and binding it. -/
theorem run_eq : t.run evaluator results env =
    (t.value evaluator results env).map fun v => (v, t.bind v env) := by
  obtain ⟨work, args, after⟩ := t
  unfold value
  cases work with
  | constant c => rfl
  | eval expression =>
    unfold run
    dsimp only
    cases evaluator expression env with
    | error e => rfl
    | ok v => rfl
  | call f =>
    unfold run
    dsimp only
    cases Arg.resolveAll env results args with
    | error e => rfl
    | ok vs =>
      change (f.apply vs >>= _ : Answer _) = ((f.apply vs >>= _ : Answer _).map _).map _
      cases f.apply vs with
      | error e => rfl
      | ok v => rfl
  | commit target =>
    cases args with
    | nil => rfl
    | cons source rest =>
      unfold run
      dsimp only
      cases source.resolve env results with
      | error e => rfl
      | ok v => rfl

/-- A task that evaluates no text has one value where its references and variables agree. -/
theorem value_congr (hnoText : ∀ expression, t.work ≠ .eval expression)
    (hrefs : ∀ r ∈ t.refs, results r = results' r)
    (hcolumns : ∀ c ∈ t.columns, env.get? c = env'.get? c) :
    t.value evaluator results env = t.value evaluator results' env' := by
  obtain ⟨work, args, after⟩ := t
  cases work with
  | constant c => rfl
  | eval expression => exact absurd rfl (hnoText expression)
  | call f => rw [value_call, value_call, Arg.resolveAll_congr args hrefs hcolumns]
  | commit target =>
    cases args with
    | nil => rfl
    | cons source rest =>
      simp only [Task.refs, Task.columns, Arg.refsAll, Arg.columnsAll,
        List.forall_mem_append] at hrefs hcolumns
      rw [value_commit, value_commit, Arg.resolve_congr source hrefs.1 hcolumns.1]

/-- The results enter a value only where the task refers to them. -/
theorem value_congr_refs (hrefs : ∀ r ∈ t.refs, results r = results' r) :
    t.value evaluator results env = t.value evaluator results' env := by
  by_cases hnoText : ∀ expression, t.work ≠ .eval expression
  · exact value_congr hnoText hrefs fun _ _ => rfl
  · obtain ⟨expression, htext⟩ : ∃ expression, t.work = .eval expression := by
      simpa using hnoText
    obtain ⟨work, args, after⟩ := t
    cases htext
    rw [value_eval, value_eval]

/-- A run depends on the results only where the arguments refer to them. -/
theorem run_congr (hrefs : ∀ r ∈ t.refs, results r = results' r) :
    t.run evaluator results env = t.run evaluator results' env := by
  rw [run_eq, run_eq, value_congr_refs hrefs]

/-- The value depends on nothing but the results that the task refers to and the variables it
reads. -/
def Framed (evaluator : Evaluator) (t : Task) : Prop :=
  ∀ {results results' : String → Option Value} {env env' : Environment} {v : Value},
    (∀ r ∈ t.refs, results r = results' r) → (∀ c ∈ t.columns, env.get? c = env'.get? c) →
      t.value evaluator results env = .ok v → t.value evaluator results' env' = .ok v

theorem framed_of_noText (hnoText : ∀ expression, t.work ≠ .eval expression) :
    t.Framed evaluator := by
  intro results results' env env' v hrefs hcolumns h
  rwa [← value_congr hnoText hrefs hcolumns]

theorem refs_subset_dependencies {r : String} (h : r ∈ t.refs) : r ∈ t.dependencies :=
  List.mem_append_left _ h

theorem mem_dependencies_iff {d : String} : d ∈ t.dependencies ↔ d ∈ t.refs ∨ d ∈ t.after := by
  by_cases h : d ∈ t.refs <;> simp [dependencies, h]

end Task

end ColumnFlow
