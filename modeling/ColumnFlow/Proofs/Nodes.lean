import ColumnFlow.Proofs.Engine
import ColumnFlow.Proofs.Lookups
import ColumnFlow.Proofs.TaskTrees

/-!
# What the nodes of an expression name

A node names at most one column and at most one function. Read off the nodes in order, a node
before its parts, the columns are those that the tasks of the compiled graph ask for, and the
functions are those that compilation looks up.
-/

namespace ColumnFlow

/-! ## Collecting along the nodes -/

/-- The column that a node reads. A name with a subscript leaves that to its first part. -/
def Expr.column? : Expr → Option String
  | .symbol name none => some name
  | _ => none

/-- The function that a node calls: `slice` for a name with a subscript, and that of the operator
for an operation on parts that are not all pure. -/
def Expr.function? (e : Expr) : Option String := e.operation?.map Prod.fst

/-- What is collected from a node first and then from its parts is collected along the nodes. -/
theorem Expr.eq_filterMap_nodes {collect : Expr → List String} {own : Expr → Option String}
    (hstep : ∀ e, collect e = (own e).toList ++ e.children.flatMap collect) (e : Expr) :
    collect e = e.nodes.filterMap own := by
  induction e using Expr.of_children with
  | step e ih =>
    rw [hstep, Expr.nodes_eq, List.filterMap_cons, List.filterMap_flatMap, List.flatMap_congr ih]
    cases own e with
    | none => rfl
    | some name => rfl

/-! ## Columns -/

theorem Expr.occurrencesAll_eq (es : List Expr) :
    Expr.occurrencesAll es = es.flatMap Expr.occurrences := by
  induction es with
  | nil => rfl
  | cons e es ih => rw [Expr.occurrencesAll, ih, List.flatMap_cons]

theorem Expr.occurrences?_eq (part : Option Expr) :
    Expr.occurrences? part = part.toList.flatMap Expr.occurrences := by
  cases part with
  | none => rfl
  | some e => exact (List.flatMap_singleton _ _).symm

theorem Subscript.occurrences_eq (s : Subscript) :
    s.occurrences = s.parts.flatMap Expr.occurrences := by
  cases s with
  | index position => exact (List.flatMap_singleton _ _).symm
  | slice lower upper step =>
    simp only [occurrences, parts, Expr.occurrences?_eq, List.flatMap_append, List.append_assoc]

theorem Expr.occurrences_eq (e : Expr) :
    e.occurrences = e.column?.toList ++ e.children.flatMap Expr.occurrences := by
  cases e with
  | literal value => rfl
  | symbol name s =>
    cases s with
    | none => rfl
    | some s =>
      rw [occurrences, Subscript.occurrences?, s.occurrences_eq]
      rfl
  | call name arguments s =>
    rw [occurrences, occurrencesAll_eq, children, List.flatMap_append]
    cases s with
    | none => rfl
    | some s =>
      rw [Subscript.occurrences?, s.occurrences_eq, Option.toList_some, List.flatMap_singleton]
      rfl
  | binary op left right => simp [occurrences, column?, children]
  | unary op operand => simp [occurrences, column?, children]

/-- The column names of an expression are those of its nodes. -/
theorem Expr.occurrences_eq_nodes (e : Expr) : e.occurrences = e.nodes.filterMap Expr.column? :=
  Expr.eq_filterMap_nodes Expr.occurrences_eq e

theorem Expr.occurrences_of_operation {e : Expr} {name : String} {parts : List Part}
    (hcalls : e.operation? = some (name, parts)) :
    e.occurrences = e.children.flatMap Expr.occurrences := by
  rw [occurrences_eq]
  cases e with
  | symbol name s =>
    cases s with
    | none => cases hcalls
    | some s => rfl
  | literal | call | binary | unary => rfl

/-! ### First occurrences -/

theorem eraseDups_eq_self {names : List String} (hnodup : names.Nodup) :
    names.eraseDups = names := by
  induction names with
  | nil => rfl
  | cons n ns ih =>
    obtain ⟨hnew, hnodup⟩ := List.nodup_cons.1 hnodup
    have hothers : ns.filter (fun b => !b == n) = ns :=
      List.filter_eq_self.2 fun b hmem => by simp [ne_of_mem_of_not_mem hmem hnew]
    rw [List.eraseDups_cons, hothers, ih hnodup]

theorem eraseDups_filter (p : String → Bool) :
    (names : List String) → (names.filter p).eraseDups = names.eraseDups.filter p
  | [] => rfl
  | n :: ns => by
    rw [List.eraseDups_cons]
    by_cases hkept : p n
    · rw [List.filter_cons_of_pos hkept, List.filter_cons_of_pos hkept, List.eraseDups_cons,
        List.filter_comm, eraseDups_filter p (ns.filter _)]
    · have hothers : (ns.filter fun b => !b == n).filter p = ns.filter p := by
        rw [List.filter_filter]
        refine List.filter_congr fun b _ => ?_
        by_cases hsame : b = n
        · simp [hsame, hkept]
        · simp [hsame]
      rw [List.filter_cons_of_neg hkept, List.filter_cons_of_neg hkept, ← hothers,
        eraseDups_filter p (ns.filter _)]
termination_by names => names.length
decreasing_by all_goals exact Nat.lt_succ_of_le (List.length_filter_le _ _)

/-- What is appended adds only the names that are new, and these are the same on both sides. -/
theorem eraseDups_append_congr {as as' bs bs' : List String} (hfirst : as.eraseDups = as'.eraseDups)
    (hsecond : bs.eraseDups = bs'.eraseDups) : (as ++ bs).eraseDups = (as' ++ bs').eraseDups := by
  have hsame (name : String) : as.elem name = as'.elem name := by
    have hboth : name ∈ as ↔ name ∈ as' := by rw [← List.mem_eraseDups, hfirst, List.mem_eraseDups]
    simp only [List.elem_eq_mem, hboth]
  rw [List.eraseDups_append, List.eraseDups_append, List.removeAll, List.removeAll, hfirst,
    eraseDups_filter, eraseDups_filter, hsecond]
  simp only [hsame]

/-! ### Columns of compiled graphs -/

/-- The variables that the tasks of a graph ask for, in insertion order, with repetitions. -/
def Graph.columns (g : Graph) : List String := g.tasks.entries.flatMap fun entry => entry.2.columns

variable {registry : Registry} {parts : List Part} {args : List Arg}
variable {code : List (String × Task)}

/-- Up to repetitions, the code asks for the columns of the parts in their order. -/
theorem Emits.columns (h : Emits registry parts args code) :
    (code.flatMap fun entry => entry.2.columns).eraseDups =
      ((parts.flatMap Part.exprs).flatMap Expr.occurrences).eraseDups := by
  induction h with
  | none | constant | omitted => rfl
  | more _ _ ih ih' =>
    rw [List.flatMap_append, List.flatMap_cons, List.flatMap_append]
    rw [List.flatMap_singleton] at ih
    exact eraseDups_append_congr ih ih'
  | @eval _ e _ _ =>
    rw [List.flatMap_singleton, List.flatMap_singleton, Part.exprs, List.flatMap_singleton]
    exact (congrArg List.eraseDups e.columns_evalTask).trans
      (eraseDups_eq_self (nodup_eraseDups e.occurrences))
  | call hcalls _ hinner ih =>
    rw [List.flatMap_append, List.flatMap_singleton, Task.columns, Task.call, Task.of,
      hinner.arguments.2, List.append_nil, ih, ← Expr.children_of_operation hcalls,
      ← Expr.occurrences_of_operation hcalls, List.flatMap_singleton, Part.exprs,
      List.flatMap_singleton]
  | index _ ih | given _ ih => exact ih
  | slice _ ih =>
    rw [ih]
    simp [Part.exprs, Subscript.parts]

variable {e : Expr} {names names' : NameSupply} {g : Graph} {output : String}

/-- Up to repetitions, the tasks of a compiled graph ask for the column names of the expression, in
the order of its nodes. Each of the names has a task that depends on it. -/
theorem compiled_graph_reads_columns
    (hbuilt : e.buildWith names registry = (.ok (g, output), names')) :
    g.columns.eraseDups = e.symbols ∧
    e.symbols = (e.nodes.filterMap Expr.column?).eraseDups ∧
    ∀ name ∈ e.symbols, g.dependents name ≠ [] := by
  have hcolumns : g.columns.eraseDups = e.symbols := by
    have hemitted := (buildWith_emits hbuilt).columns
    rwa [List.flatMap_singleton, Part.exprs, List.flatMap_singleton] at hemitted
  refine ⟨hcolumns, congrArg List.eraseDups e.occurrences_eq_nodes, fun name hmem => ?_⟩
  rw [← hcolumns, List.mem_eraseDups] at hmem
  obtain ⟨entry, hget, hreads⟩ := List.mem_flatMap.1 hmem
  have hmentions : entry.2.mentions name := by simp [Task.mentions, hreads]
  exact List.ne_nil_of_mem (List.mem_map_of_mem (List.mem_filter.2 ⟨hget, hmentions⟩))

/-- A subscripted name, and an operation on it that is not pure. The column `y` is asked for twice
before `x` is asked for again. -/
theorem compiled_graph_reads_columns_subscript :
    let e : Expr := .binary .mul (.symbol "x" (some (.slice none (some (.column "y")) none)))
      (.binary .add (.column "y") (.column "x"))
    let apply : List Value → Answer Value := fun args => .ok (.tuple args)
    let registry := (Registry.empty.install "slice" apply).install "mul" apply
    ∃ g output names', e.buildWith .fresh registry = (.ok (g, output), names') ∧
      g.columns = ["x", "y", "y", "x"] ∧ e.symbols = ["x", "y"] ∧
      g.dependents "x" = ["eval-0", "eval-2"] ∧ ∀ name ∈ e.symbols, g.dependents name ≠ [] := by
  intro e apply registry
  obtain ⟨g, output, names', hbuilt, hcolumns, hdependents⟩ : ∃ g output names',
      e.buildWith .fresh registry = (.ok (g, output), names') ∧
      g.columns = ["x", "y", "y", "x"] ∧ g.dependents "x" = ["eval-0", "eval-2"] := by
    dsimp only [e, apply, registry]
    exact ⟨_, _, _, rfl, by decide, by decide⟩
  obtain ⟨hsymbols, -, hread⟩ := compiled_graph_reads_columns hbuilt
  rw [hcolumns] at hsymbols
  exact ⟨g, output, names', hbuilt, hcolumns, hsymbols.symm, hdependents, hread⟩

/-! ## Functions -/

theorem Expr.lookups_of_pure {e : Expr} (hpure : e.isPure) : e.lookups = [] := by
  cases e with
  | literal value => rfl
  | symbol name s =>
    cases s with
    | none => rfl
    | some s => cases hpure
  | call name arguments s => cases hpure
  | binary op left right => exact if_pos hpure
  | unary op operand => exact if_pos hpure

theorem Expr.lookupsAll_eq (es : List Expr) :
    Expr.lookupsAll es = es.flatMap Expr.lookups := by
  induction es with
  | nil => rfl
  | cons e es ih => rw [Expr.lookupsAll, ih, List.flatMap_cons]

theorem Expr.lookups?_eq (part : Option Expr) :
    Expr.lookups? part = part.toList.flatMap Expr.lookups := by
  cases part with
  | none => rfl
  | some e => exact (List.flatMap_singleton _ _).symm

theorem Subscript.lookups_eq (s : Subscript) : s.lookups = s.parts.flatMap Expr.lookups := by
  cases s with
  | index position => exact (List.flatMap_singleton _ _).symm
  | slice lower upper step =>
    simp only [lookups, parts, Expr.lookups?_eq, List.flatMap_append]

/-- Inside a pure operation there is nothing to look up either. -/
theorem Expr.lookups_eq (e : Expr) :
    e.lookups = e.function?.toList ++ e.children.flatMap Expr.lookups := by
  by_cases hpure : e.isPure
  · have hinside : ∀ c ∈ e.children, c.lookups = [] :=
      fun c hmem => lookups_of_pure (isPure_of_mem_children hpure hmem)
    have hown : e.function? = none := by
      cases hcalls : e.operation? with
      | none => rw [function?, hcalls]; rfl
      | some call => exact absurd hpure (not_isPure_of_operation hcalls)
    rw [lookups_of_pure hpure, hown, List.flatMap_eq_nil_iff.2 hinside]
    rfl
  · cases e with
    | literal value => exact absurd rfl hpure
    | symbol name s =>
      cases s with
      | none => exact absurd rfl hpure
      | some s =>
        rw [lookups, s.lookups_eq]
        rfl
    | call name arguments s =>
      rw [lookups, lookupsAll_eq, children, List.flatMap_append]
      cases s with
      | none => rfl
      | some s =>
        rw [Subscript.lookups?, s.lookups_eq, Option.toList_some, List.flatMap_singleton]
        rfl
    | binary op left right =>
      rw [isPure] at hpure
      rw [lookups, function?, operation?, if_neg hpure, if_neg hpure]
      simp [children]
    | unary op operand =>
      rw [isPure] at hpure
      rw [lookups, function?, operation?, if_neg hpure, if_neg hpure]
      simp [children]

/-- Compilation looks up the functions that the nodes call. -/
theorem Expr.lookups_eq_nodes (e : Expr) : e.lookups = e.nodes.filterMap Expr.function? :=
  Expr.eq_filterMap_nodes Expr.lookups_eq e

/-- The first missing function stands behind functions that are all registered. -/
theorem Registry.missing?_eq_some_iff {registry : Registry} {names : List String} {name : String} :
    registry.missing? names = some name ↔ ∃ before after, names = before ++ name :: after ∧
      (∀ n ∈ before, registry.contains n) ∧ ¬ registry.contains name := by
  unfold missing?
  rw [List.find?_eq_some_iff_append]
  simp only [Bool.not_not, Bool.not_eq_true', Bool.not_eq_true]
  constructor
  · rintro ⟨hmissing, before, after, hsplit, hearlier⟩
    exact ⟨before, after, hsplit, hearlier, hmissing⟩
  · rintro ⟨before, after, hsplit, hearlier, hmissing⟩
    exact ⟨hmissing, before, after, hsplit, hearlier⟩

theorem Registry.missing?_eq_none_iff {registry : Registry} {names : List String} :
    registry.missing? names = none ↔ ∀ n ∈ names, registry.contains n := by
  unfold missing?
  simp only [List.find?_eq_none, Bool.not_eq_true', Bool.not_eq_false]

/-- An expression compiles exactly if the functions that its nodes call are registered. Otherwise
the first that is not is reported, and nothing else ever is. -/
theorem build_fails_on_first_missing (e : Expr) (names : NameSupply) (registry : Registry) :
    ((∃ built, (e.buildWith names registry).1 = .ok built) ↔
      ∀ function ∈ e.nodes.filterMap Expr.function?, registry.contains function) ∧
    (∀ error, (e.buildWith names registry).1 = .error error ↔
      ∃ before function after, error = .unknownFunction function ∧
        e.nodes.filterMap Expr.function? = before ++ function :: after ∧
        (∀ f ∈ before, registry.contains f) ∧ ¬ registry.contains function) ∧
    ∀ cause, (e.buildWith names registry).1 ≠ .error (.graph cause) := by
  obtain ⟨names', -, hanswer⟩ := buildWith_answers e names registry
  -- The names of the nodes are what compilation looks up, in the same order.
  rw [← e.lookups_eq_nodes]
  cases habsent : registry.missing? e.lookups with
  | none =>
    rw [habsent] at hanswer
    obtain ⟨g, output, hbuilt, -⟩ := hanswer
    rw [hbuilt]
    have hcomplete := Registry.missing?_eq_none_iff.1 habsent
    refine ⟨⟨fun _ => hcomplete, fun _ => ⟨_, rfl⟩⟩, fun error => ⟨fun hfailed => ?_, ?_⟩, ?_⟩
    · cases hfailed
    · rintro ⟨before, function, after, -, hsplit, -, hmissing⟩
      exact absurd (hcomplete function (by simp [hsplit])) hmissing
    · rintro cause ⟨⟩
  | some function =>
    rw [habsent] at hanswer
    rw [hanswer]
    obtain ⟨before, after, hsplit, hearlier, hmissing⟩ := Registry.missing?_eq_some_iff.1 habsent
    refine ⟨⟨?_, fun hcomplete => ?_⟩, fun error => ⟨?_, ?_⟩, ?_⟩
    · rintro ⟨built, ⟨⟩⟩
    · exact absurd (hcomplete function (by simp [hsplit])) hmissing
    · rintro ⟨⟩
      exact ⟨before, function, after, rfl, hsplit, hearlier, hmissing⟩
    · rintro ⟨before', function', after', rfl, hfirst'⟩
      cases habsent.symm.trans (Registry.missing?_eq_some_iff.2 ⟨before', after', hfirst'⟩)
      rfl
    · rintro cause ⟨⟩

end ColumnFlow
