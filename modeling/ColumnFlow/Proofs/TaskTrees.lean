import ColumnFlow.Proofs.Compilation
import ColumnFlow.Proofs.EvalTasks
import ColumnFlow.Proofs.Numbering
import ColumnFlow.Proofs.Validity

/-!
# Compiled graphs are trees

Each largest pure part of an expression becomes one task, and so does each node above them. A task
refers once to the task of each of its parts, and the tasks of its parts stand directly in front of
it. The tasks are thus those of a tree, children first, with the output as its root.
-/

namespace ColumnFlow

/-! ## Nodes -/

/-- The parts of a subscript from left to right. -/
def Subscript.parts : Subscript → List Expr
  | .index position => [position]
  | .slice lower upper step => lower.toList ++ (upper.toList ++ step.toList)

/-- The parts of an expression from left to right. A name that has a subscript is a part, too. -/
def Expr.children : Expr → List Expr
  | .literal _ => []
  | .symbol _ none => []
  | .symbol name (some s) => .column name :: s.parts
  | .call _ arguments subscript => arguments ++ subscript.toList.flatMap Subscript.parts
  | .binary _ left right => [left, right]
  | .unary _ operand => [operand]

theorem Subscript.sizeOf_lt_of_mem_parts {s : Subscript} {c : Expr} (hmem : c ∈ s.parts) :
    sizeOf c < sizeOf s := by
  cases s with
  | index position =>
    cases List.mem_singleton.1 hmem
    simp
  | slice lower upper step =>
    simp only [parts, List.mem_append, Option.mem_toList] at hmem
    rcases hmem with rfl | rfl | rfl
    · simp +arith
    · simp +arith
    · simp +arith

/-- The children of an expression are smaller, which the recursion over nodes rests on. -/
theorem Expr.sizeOf_lt_of_mem_children {e c : Expr} (hmem : c ∈ e.children) :
    sizeOf c < sizeOf e := by
  cases e with
  | literal value => cases hmem
  | symbol name s =>
    cases s with
    | none => cases hmem
    | some s =>
      rcases List.mem_cons.1 hmem with rfl | hpart
      · cases s with
        | index position => simp +arith [Expr.column]
        | slice lower upper step => simp +arith [Expr.column]
      · have := Subscript.sizeOf_lt_of_mem_parts hpart
        simp +arith
        omega
  | call name arguments s =>
    rcases List.mem_append.1 hmem with hargument | hpart
    · have := List.sizeOf_lt_of_mem hargument
      simp +arith
      omega
    · obtain ⟨s', hget, hinside⟩ := List.mem_flatMap.1 hpart
      cases Option.mem_toList.1 hget
      have := Subscript.sizeOf_lt_of_mem_parts hinside
      simp +arith
      omega
  | binary op left right =>
    simp only [children, List.mem_cons, List.not_mem_nil, or_false] at hmem
    rcases hmem with rfl | rfl
    · simp +arith
    · simp +arith
  | unary op operand =>
    cases List.mem_singleton.1 hmem
    simp

/-- An expression and everything in it, a node before its parts. -/
def Expr.nodes (e : Expr) : List Expr := e :: e.children.attach.flatMap fun c => c.1.nodes
termination_by sizeOf e
decreasing_by exact Expr.sizeOf_lt_of_mem_children c.2

/-- The pure parts of an expression that stand in no other pure part. -/
def Expr.largestPure (e : Expr) : List Expr :=
  if e.isPure then [e] else e.children.attach.flatMap fun c => c.1.largestPure
termination_by sizeOf e
decreasing_by exact Expr.sizeOf_lt_of_mem_children c.2

theorem Expr.nodes_eq (e : Expr) : e.nodes = e :: e.children.flatMap Expr.nodes := by
  rw [nodes]
  simp

theorem Expr.largestPure_of_pure {e : Expr} (hpure : e.isPure) : e.largestPure = [e] := by
  rw [largestPure, if_pos hpure]

theorem Expr.largestPure_of_impure {e : Expr} (himpure : ¬ e.isPure) :
    e.largestPure = e.children.flatMap Expr.largestPure := by
  rw [largestPure, if_neg himpure]
  simp

/-- What passes from the parts of an expression to the expression holds of all expressions. -/
theorem Expr.of_children {P : Expr → Prop} (step : ∀ e, (∀ c ∈ e.children, P c) → P e)
    (e : Expr) : P e :=
  Expr.nodes.induct P (fun e ih => step e fun c hmem => ih ⟨c, hmem⟩) e

/-- The children of a pure expression are pure. -/
theorem Expr.isPure_of_mem_children {e c : Expr} (hpure : e.isPure) (hmem : c ∈ e.children) :
    c.isPure := by
  cases e with
  | literal value => cases hmem
  | symbol name s =>
    cases s with
    | none => cases hmem
    | some s => cases hpure
  | call name arguments s => cases hpure
  | binary op left right =>
    simp only [isPure, Bool.and_eq_true] at hpure
    simp only [children, List.mem_cons, List.not_mem_nil, or_false] at hmem
    rcases hmem with rfl | rfl
    · exact hpure.1
    · exact hpure.2
  | unary op operand =>
    cases List.mem_singleton.1 hmem
    exact hpure

theorem Expr.isPure_of_mem_nodes {e : Expr} (hpure : e.isPure) : ∀ n ∈ e.nodes, n.isPure := by
  induction e using Expr.of_children with
  | step e ih =>
    rw [Expr.nodes_eq, List.forall_mem_cons]
    refine ⟨hpure, fun n hmem => ?_⟩
    obtain ⟨c, hpart, hinside⟩ := List.mem_flatMap.1 hmem
    exact ih c hpart (Expr.isPure_of_mem_children hpure hpart) n hinside

/-! ## Operations -/

/-- An expression that is not pure calls a function on its parts. -/
theorem Expr.exists_operation {e : Expr} (himpure : ¬ e.isPure) :
    ∃ name parts, e.operation? = some (name, parts) := by
  cases e with
  | literal value => exact absurd rfl himpure
  | symbol name s =>
    cases s with
    | none => exact absurd rfl himpure
    | some s => exact ⟨_, _, rfl⟩
  | call name arguments s => exact ⟨_, _, rfl⟩
  | binary op left right => exact ⟨_, _, if_neg himpure⟩
  | unary op operand => exact ⟨_, _, if_neg himpure⟩

namespace Part

/-- The expressions that a part is made of. -/
def exprs : Part → List Expr
  | .expr e => [e]
  | .subscript s => s.parts
  | .bound b => b.toList

theorem flatMap_exprs_expr (es : List Expr) : (es.map Part.expr).flatMap exprs = es := by
  rw [List.flatMap_map]
  exact List.flatMap_singleton' es

theorem pureParts?_eq (b : Option Expr) :
    Expr.pureParts? b = b.toList.flatMap Expr.pureParts := by
  cases b with
  | none => rfl
  | some e => exact (List.flatMap_singleton _ _).symm

/-- The pure parts of a part are those of its expressions. -/
theorem pureParts_eq (p : Part) : p.pureParts = p.exprs.flatMap Expr.pureParts := by
  cases p with
  | expr e => exact (List.flatMap_singleton _ _).symm
  | subscript s =>
    cases s with
    | index position => exact (List.flatMap_singleton _ _).symm
    | slice lower upper step =>
      rw [exprs, Subscript.parts, List.flatMap_append, List.flatMap_append]
      simp only [← pureParts?_eq]
      rfl
  | bound b => exact pureParts?_eq b

end Part

/-- What compiles to a call is not pure. -/
theorem Expr.not_isPure_of_operation {e : Expr} {name : String} {parts : List Part}
    (hcalls : e.operation? = some (name, parts)) : ¬ e.isPure := by
  intro hpure
  unfold Expr.operation? at hcalls
  split at hcalls
  · cases hpure
  · cases hpure
  · split at hcalls
    · cases hcalls
    · next himpure => exact himpure hpure
  · split at hcalls
    · cases hcalls
    · next himpure => exact himpure hpure
  · cases hcalls

/-- The children of an operation are the expressions among its parts. -/
theorem Expr.children_of_operation {e : Expr} {name : String} {parts : List Part}
    (hcalls : e.operation? = some (name, parts)) : e.children = parts.flatMap Part.exprs := by
  unfold Expr.operation? at hcalls
  split at hcalls
  · cases hcalls
    simp [Part.exprs, Expr.children]
  · next s =>
    cases hcalls
    rw [List.flatMap_append, Part.flatMap_exprs_expr, Expr.children]
    cases s with
    | none => rfl
    | some s => rfl
  · split at hcalls
    · cases hcalls
    · cases hcalls
      rfl
  · split at hcalls
    · cases hcalls
    · cases hcalls
      rfl
  · cases hcalls

/-- Whether the expression is a literal on its own. -/
def Expr.isLiteral : Expr → Bool
  | .literal _ => true
  | _ => false

/-- The parts that get an eval task are the largest pure parts except for literals. -/
theorem Expr.pureParts_eq (e : Expr) :
    e.pureParts = e.largestPure.filter fun s => !s.isLiteral := by
  induction e using Expr.of_children with
  | step e ih =>
    by_cases hpure : e.isPure
    · rw [Expr.largestPure_of_pure hpure]
      cases hliteral : e.isLiteral with
      | true =>
        cases e with
        | literal value => rfl
        | symbol | call | binary | unary => cases hliteral
      | false =>
        have hcompound : ∀ value, e ≠ .literal value := by
          rintro value rfl
          cases hliteral
        rw [pureParts_of_pure hpure hcompound, List.filter_singleton, hliteral]
        rfl
    · obtain ⟨name, parts, hcalls⟩ := Expr.exists_operation hpure
      rw [Expr.largestPure_of_impure hpure, List.filter_flatMap, pureParts_of_operation hcalls]
      have hsame : (e.children.flatMap fun c => c.largestPure.filter fun s => !s.isLiteral) =
          e.children.flatMap Expr.pureParts := List.flatMap_congr fun c hmem => (ih c hmem).symm
      rw [hsame, Expr.children_of_operation hcalls, List.flatMap_assoc]
      exact List.flatMap_congr fun p _ => p.pureParts_eq

/-! ## Counting tasks -/

/-- The number of tasks: one for each largest pure part, one for each node that is not pure. -/
def Expr.taskCount (e : Expr) : Nat :=
  e.largestPure.length + (e.nodes.filter fun n => !n.isPure).length

theorem Expr.taskCount_of_pure {e : Expr} (hpure : e.isPure) : e.taskCount = 1 := by
  have hnone : (e.nodes.filter fun n => !n.isPure) = [] :=
    List.filter_eq_nil_iff.2 fun n hmem => by simp [Expr.isPure_of_mem_nodes hpure n hmem]
  rw [taskCount, hnone, Expr.largestPure_of_pure hpure]
  rfl

theorem Expr.taskCount_of_impure {e : Expr} (himpure : ¬ e.isPure) :
    e.taskCount = (e.children.map Expr.taskCount).sum + 1 := by
  unfold taskCount
  rw [Expr.largestPure_of_impure himpure, Expr.nodes_eq,
    List.filter_cons_of_pos (by simp [himpure]), List.length_cons, List.filter_flatMap,
    List.length_flatMap, List.length_flatMap, List.sum_map_add, Nat.add_assoc]

variable {registry : Registry} {parts : List Part} {args : List Arg}
variable {code : List (String × Task)} {g : Graph} {output : String}

/-- The number of emitted tasks. -/
theorem Emits.length (h : Emits registry parts args code) :
    code.length = ((parts.flatMap Part.exprs).map Expr.taskCount).sum := by
  induction h with
  | none | omitted => rfl
  | more _ _ ih ih' =>
    rw [List.length_append, ih, ih', ← List.sum_append, ← List.map_append, ← List.flatMap_append]
    rfl
  | constant => exact (Expr.taskCount_of_pure rfl).symm
  | eval hpure _ => exact (Expr.taskCount_of_pure hpure).symm
  | call hcalls _ _ ih =>
    rw [List.length_append, ih, ← Expr.children_of_operation hcalls, List.length_singleton,
      ← Expr.taskCount_of_impure (Expr.not_isPure_of_operation hcalls)]
    rfl
  | index _ ih | given _ ih => exact ih
  | slice _ ih =>
    rw [ih]
    simp [Part.exprs, Subscript.parts]

/-- Every emitted task is referred to once, by an argument or by another task. -/
theorem Emits.count_refs (h : Emits registry parts args code) (n : String) :
    (Arg.refsAll args).count n + (code.flatMap fun entry => entry.2.refs).count n =
      (code.map Prod.fst).count n := by
  induction h with
  | none | omitted => rfl
  | @more _ _ a as first rest _ _ ih ih' =>
    rw [Arg.refsAll_singleton] at ih
    rw [Arg.refsAll, List.flatMap_append, List.map_append]
    simp only [List.count_append]
    omega
  | constant => rfl
  | eval =>
    rw [List.flatMap_singleton, Task.refs, Task.eval, Task.of, Arg.refsAll_map]
    rfl
  | @call name _ _ f _ args code _ _ _ ih =>
    rw [List.flatMap_append, List.map_append, List.flatMap_singleton]
    simp only [List.count_append, List.map_singleton]
    rw [← ih, Arg.refsAll_singleton, Arg.refs, Task.refs, Task.call, Task.of, Nat.add_comm,
      Nat.add_comm (List.count n (Arg.refsAll args))]
  | index _ ih | given _ ih => exact ih
  | slice _ ih =>
    rw [← ih, Arg.refsAll_singleton, Arg.refs]

/-! ## Trees -/

/-- The tasks form a tree: each task but the root is referred to once, by one other task, and comes
before it. No task is ordered in any other way. -/
structure Graph.IsTree (g : Graph) (output : String) : Prop where
  legal : g.Legal g.names
  unordered : ∀ n t, g.get? n = some t → t.after = []
  last : g.last? = some output
  root : ∀ n t, g.get? n = some t → output ∉ t.refs
  parent : ∀ n ∈ g.names, n ≠ output → ∃ m t, g.get? m = some t ∧ t.refs.count n = 1 ∧
    ∀ m' t', g.get? m' = some t' → n ∈ t'.refs → m' = m

/-- The walk lists the names and enters no others. -/
def Graph.Lists (g : Graph) (steps : List Graph.Step) (names : List String) : Prop :=
  ∀ rest seen done, (∀ n ∈ names, n ∉ seen) →
    ∃ seen', (∀ n, n ∈ seen' ↔ n ∈ seen ∨ n ∈ names) ∧
      g.walk (steps ++ rest) seen done = g.walk rest seen' (names.reverse ++ done)

namespace Graph.Lists

variable {steps steps' : List Graph.Step} {names names' : List String}

theorem nil : g.Lists [] [] := fun rest seen done _ => ⟨seen, fun n => by simp, rfl⟩

/-- Lists of names that have nothing in common can be put together. -/
theorem append (h : g.Lists steps names) (h' : g.Lists steps' names')
    (hapart : ∀ n ∈ names, n ∉ names') : g.Lists (steps ++ steps') (names ++ names') := by
  intro rest seen done hfresh
  rw [List.forall_mem_append] at hfresh
  obtain ⟨seen', hmem_iff, hwalked⟩ := h (steps' ++ rest) seen done hfresh.1
  have hfresh' : ∀ n ∈ names', n ∉ seen' := by
    intro n hmem hentered
    rcases (hmem_iff n).1 hentered with hold | hnew
    · exact hfresh.2 n hmem hold
    · exact hapart n hnew hmem
  obtain ⟨seen'', hmem_iff', hwalked'⟩ := h' rest seen' (names.reverse ++ done) hfresh'
  refine ⟨seen'', fun n => ?_, ?_⟩
  · rw [hmem_iff', hmem_iff, List.mem_append, or_assoc]
  · rw [List.append_assoc, hwalked, hwalked', List.reverse_append, List.append_assoc]

/-- A task is listed after the tasks it refers to. -/
theorem task {name parent : String} {t : Task} (hget : g.get? name = some t)
    (hunordered : t.after = []) (hinner : g.Lists (t.refs.map (.enter · name)) names)
    (hnew : name ∉ names) : g.Lists [.enter name parent] (names ++ [name]) := by
  intro rest seen done hfresh
  rw [List.forall_mem_append, List.forall_mem_singleton] at hfresh
  have hfresh' : ∀ n ∈ names, n ∉ name :: seen := by
    intro n hmem hentered
    rcases List.mem_cons.1 hentered with rfl | hold
    · exact hnew hmem
    · exact hfresh.1 n hmem hold
  obtain ⟨seen', hmem_iff, hwalked⟩ := hinner (.leave name :: rest) (name :: seen) done hfresh'
  refine ⟨seen', fun n => ?_, ?_⟩
  · rw [hmem_iff, List.mem_cons, List.mem_append, List.mem_singleton, or_assoc, or_comm, or_assoc]
  · have hwaits : t.dependencies = t.refs := by
      rw [Task.dependencies, hunordered]
      exact List.append_nil _
    rw [List.singleton_append, Graph.walk, if_neg hfresh.2]
    split
    · next hnone => cases hnone.symm.trans hget
    · next t' hat' =>
      cases hat'.symm.trans hget
      rw [hwaits, hwalked, Graph.walk, List.reverse_append]
      rfl

end Graph.Lists

/-- A walk through the arguments lists the emitted tasks in the order in which they were added. -/
theorem Emits.lists (h : Emits registry parts args code)
    (hknown : ∀ entry ∈ code, g.get? entry.1 = some entry.2) (hnodup : (code.map Prod.fst).Nodup)
    (parent : String) :
    g.Lists ((Arg.refsAll args).map (.enter · parent)) (code.map Prod.fst) := by
  -- Induction on what was emitted, with the task that refers to it: its tasks are entered once,
  -- children first.
  induction h generalizing parent with
  | none | omitted => exact .nil
  | more _ _ ih ih' =>
    rw [List.map_append] at hnodup ⊢
    obtain ⟨hnodup, hnodup', hapart⟩ := List.nodup_append.1 hnodup
    rw [List.forall_mem_append] at hknown
    have hfirst := ih hknown.1 hnodup parent
    rw [Arg.refsAll_singleton] at hfirst
    rw [Arg.refsAll, List.map_append]
    exact hfirst.append (ih' hknown.2 hnodup' parent) fun n hmem hmem' => hapart n hmem n hmem' rfl
  | constant => exact .task (hknown _ List.mem_cons_self) rfl .nil List.not_mem_nil
  | @eval name e _ _ =>
    refine .task (hknown _ List.mem_cons_self) rfl ?_ List.not_mem_nil
    rw [Task.refs, Task.eval, Task.of, Arg.refsAll_map]
    exact .nil
  | call _ _ _ ih =>
    rw [List.map_append] at hnodup ⊢
    obtain ⟨hnodup, -, hapart⟩ := List.nodup_append.1 hnodup
    rw [List.forall_mem_append] at hknown
    refine .task (hknown.2 _ List.mem_cons_self) rfl (ih hknown.1 hnodup _) fun hmem => ?_
    exact hapart _ hmem _ List.mem_cons_self rfl
  | index _ ih | given _ ih => exact ih hknown hnodup parent
  | slice _ ih =>
    rw [Arg.refsAll_singleton, Arg.refs]
    exact ih hknown hnodup parent

/-! ## Compiled graphs -/

/-- Lists that have no element in common are told apart by each of their elements. -/
theorem eq_of_nodup_flatMap {α β : Type} {f : α → List β} {l : List α} {a a' : α} {b : β}
    (hnodup : (l.flatMap f).Nodup) (hmem : a ∈ l) (hmem' : a' ∈ l) (hown : b ∈ f a)
    (hown' : b ∈ f a') : a = a' := by
  by_contra hother
  have : Std.Symm (Function.onFun List.Disjoint f) := ⟨fun _ _ hapart => hapart.symm⟩
  exact (List.nodup_flatMap.1 hnodup).2.forall hmem hmem' hother hown hown'

variable {e : Expr}

/-- Each task of a compiled graph but the output is referred to once, the output never. -/
theorem count_refs_of_emits (hemits : Emits registry [.expr e] [.ref output] g.tasks.entries)
    (n : String) : (g.tasks.entries.flatMap fun entry => entry.2.refs).count n =
      if n ∈ g.names ∧ n ≠ output then 1 else 0 := by
  have htotal := hemits.count_refs n
  rw [Arg.refsAll_singleton, Arg.refs, List.count_singleton] at htotal
  have hown : output ∈ g.names := hemits.arguments.1 output List.mem_cons_self
  have honce : g.names.count n = if n ∈ g.names then 1 else 0 := g.tasks.nodup.count
  change _ = g.names.count n at htotal
  grind

/-- No task is referred to twice. -/
theorem nodup_refs_of_emits (hemits : Emits registry [.expr e] [.ref output] g.tasks.entries) :
    (g.tasks.entries.flatMap fun entry => entry.2.refs).Nodup := by
  refine List.nodup_iff_count_le_one.2 fun n => ?_
  rw [count_refs_of_emits hemits]
  split
  · exact Nat.le_refl 1
  · exact Nat.zero_le 1

/-- The output is referred to by no task. -/
theorem root_of_emits (hemits : Emits registry [.expr e] [.ref output] g.tasks.entries) {n : String}
    {t : Task} (hget : g.get? n = some t) : output ∉ t.refs := by
  intro href
  have hnone := count_refs_of_emits hemits output
  rw [if_neg fun h => h.2 rfl, List.count_eq_zero] at hnone
  exact hnone (List.mem_flatMap.2 ⟨_, (Table.get?_eq_some_iff _ _ _).1 hget, href⟩)

/-- Every other task is referred to by one task, once. -/
theorem parent_of_emits (hemits : Emits registry [.expr e] [.ref output] g.tasks.entries)
    {n : String} (hmem : n ∈ g.names) (hother : n ≠ output) :
    ∃ m t, g.get? m = some t ∧ t.refs.count n = 1 ∧
      ∀ m' t', g.get? m' = some t' → n ∈ t'.refs → m' = m := by
  have hnodup := nodup_refs_of_emits hemits
  have honce := count_refs_of_emits hemits n
  rw [if_pos ⟨hmem, hother⟩] at honce
  obtain ⟨⟨m, t⟩, hentry, href⟩ := List.mem_flatMap.1 (List.count_pos_iff.1 (honce ▸ Nat.one_pos))
  have hsingle := List.count_eq_one_of_mem ((List.nodup_flatMap.1 hnodup).1 _ hentry) href
  refine ⟨m, t, (Table.get?_eq_some_iff _ _ _).2 hentry, hsingle, fun m' t' hat' href' => ?_⟩
  have hentry' := (Table.get?_eq_some_iff _ _ _).1 hat'
  exact congrArg Prod.fst (eq_of_nodup_flatMap hnodup hentry' hentry href' href)

/-- The output was added last, since every other task is referred to by a later one. -/
theorem last_of_emits (hemits : Emits registry [.expr e] [.ref output] g.tasks.entries) :
    g.names.getLast? = some output := by
  have hown : output ∈ g.names := hemits.arguments.1 output List.mem_cons_self
  rcases List.eq_nil_or_concat g.names with hnone | ⟨before, n, hnames⟩
  · rw [hnone] at hown
    cases hown
  · rw [List.concat_eq_append] at hnames
    rw [hnames, List.getLast?_concat]
    by_contra hother
    have hlegal : g.Legal (before ++ [n]) := hnames ▸ legal_of_emits hemits
    have hmem : n ∈ g.names := by simp [hnames]
    obtain ⟨m, t, hget, honce, -⟩ := parent_of_emits hemits hmem fun hsame =>
      hother (congrArg some hsame)
    have href : n ∈ t.refs := List.count_pos_iff.1 (honce ▸ Nat.one_pos)
    refine hlegal.not_mem_dependenciesOf (hnames ▸ Graph.mem_names_of_get? hget) ?_
    exact Graph.mem_dependenciesOf_iff.2 ⟨t, hget, Task.refs_subset_dependencies href⟩

/-- Emitted tasks form a tree with the output as its root. -/
theorem isTree_of_emits (hemits : Emits registry [.expr e] [.ref output] g.tasks.entries)
    (hcoherent : g.Coherent) : g.IsTree output := by
  refine ⟨legal_of_emits hemits, fun n t hget => ?_, ?_, fun n t hget => root_of_emits hemits hget,
    fun n hmem hother => parent_of_emits hemits hmem hother⟩
  · exact (hemits.plain (n, t) ((Table.get?_eq_some_iff _ _ _).1 hget)).unordered
  · rw [hcoherent.last, last_of_emits hemits]

/-- The output requires all tasks, in the order in which they were added. -/
theorem requiredFor_output (hemits : Emits registry [.expr e] [.ref output] g.tasks.entries) :
    g.requiredFor output = .ok g.names := by
  have hown : output ∈ g.names := hemits.arguments.1 output List.mem_cons_self
  have hknown : ∀ entry ∈ g.tasks.entries, g.get? entry.1 = some entry.2 :=
    fun entry hmem => (Table.get?_eq_some_iff _ _ _).2 hmem
  obtain ⟨seen, -, hwalked⟩ :=
    hemits.lists hknown g.tasks.nodup output [] [] [] fun n _ => List.not_mem_nil
  rw [Graph.requiredFor, if_pos (Graph.contains_iff.2 hown)]
  refine hwalked.trans ?_
  rw [Graph.walk, List.append_nil, List.reverse_reverse]
  rfl

/-- A compiled graph is a tree with the output as its root. It has one task for each largest pure
part and one for each node that is not pure; those for pure parts, except for literals, are its eval
tasks. With fresh names the tasks of each category are numbered from zero in insertion order. The
output requires the whole graph, in insertion order, and the graph is valid. -/
theorem compiled_graph_is_tree {names : NameSupply}
    (hbuilt : e.buildWith .fresh registry = (.ok (g, output), names)) :
    g.IsTree output ∧
    g.size = e.largestPure.length + (e.nodes.filter fun n => !n.isPure).length ∧
    g.evalTasks = (e.largestPure.filter fun s => !s.isLiteral).map Expr.evalTask ∧
    Draft.Numbered registry ⟨names, g⟩ ∧
    g.requiredFor output = .ok g.names ∧ g.validate = .ok () := by
  have hemits := buildWith_emits hbuilt
  have hnumbered := numbered_of_build hbuilt
  refine ⟨isTree_of_emits hemits hnumbered.coherent, ?_, ?_, hnumbered, requiredFor_output hemits,
    (legal_of_emits hemits).validate_eq_ok⟩
  · exact hemits.length.trans (Nat.add_zero _)
  · rw [evalTasks_of_build hbuilt, Expr.pureParts_eq]

/-- A call on a slice, whose bound is a task of its own. -/
theorem compiled_graph_is_tree_slice :
    let e : Expr := .call "count"
      [.symbol "c" (some (.slice (some (.literal (.bool true))) none none))] none
    let apply : List Value → Answer Value := fun args => .ok (.tuple args)
    let registry := (Registry.empty.install "slice" apply).install "count" apply
    ∃ g names, e.buildWith .fresh registry = (.ok (g, "func-count-0"), names) ∧
      g.IsTree "func-count-0" ∧ g.size = 4 ∧
      g.requiredFor "func-count-0" =
        .ok ["eval-0", "constant-0", "func-slice-0", "func-count-0"] := by
  intro e apply registry
  obtain ⟨g, output, names, hbuilt, rfl, horder⟩ : ∃ g output names,
      e.buildWith .fresh registry = (.ok (g, output), names) ∧ output = "func-count-0" ∧
      g.names = ["eval-0", "constant-0", "func-slice-0", "func-count-0"] :=
    ⟨_, _, _, rfl, by decide, by decide⟩
  obtain ⟨htree, -, -, -, hrequired, -⟩ := compiled_graph_is_tree hbuilt
  rw [horder] at hrequired
  refine ⟨g, names, hbuilt, htree, ?_, hrequired⟩
  have hsize : g.size = g.names.length := (List.length_map _).symm
  rw [hsize, horder]
  rfl

end ColumnFlow
