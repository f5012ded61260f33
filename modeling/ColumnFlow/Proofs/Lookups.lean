import ColumnFlow.Proofs.Evaluation
import ColumnFlow.Proofs.Names

/-!
# What compilation looks up

Compilation can only fail on a function that is not registered. `Expr.lookups` lists the functions
that an expression asks for, in the order in which compilation comes to them: the first of them
that is not registered is reported. Adding tasks never fails, since the names are drawn from one
supply and tasks refer to tasks added before.
-/

namespace ColumnFlow

/-! ## Functions asked for -/

mutual

/-- The functions that an expression is compiled to calls of, a node before its parts. -/
def Expr.lookups : Expr → List String
  | .literal _ => []
  | .symbol _ none => []
  | .symbol _ (some s) => "slice" :: s.lookups
  | .call name arguments subscript =>
    name :: (Expr.lookupsAll arguments ++ Subscript.lookups? subscript)
  | .binary op left right =>
    if left.isPure && right.isPure then [] else op.functionName :: (left.lookups ++ right.lookups)
  | .unary op operand => if operand.isPure then [] else op.functionName :: operand.lookups

def Expr.lookupsAll : List Expr → List String
  | [] => []
  | e :: es => e.lookups ++ Expr.lookupsAll es

def Expr.lookups? : Option Expr → List String
  | none => []
  | some e => e.lookups

def Subscript.lookups : Subscript → List String
  | .index position => position.lookups
  | .slice lower upper step =>
    Expr.lookups? lower ++ (Expr.lookups? upper ++ Expr.lookups? step)

def Subscript.lookups? : Option Subscript → List String
  | none => []
  | some s => s.lookups

end

/-- The first of some functions that is not registered. -/
def Registry.missing? (registry : Registry) (names : List String) : Option String :=
  names.find? fun name => !registry.contains name

/-! ## Drafts -/

/-- The tasks of a draft have been named from a supply. -/
structure Draft.From (start : NameSupply) (d : Draft) : Prop where
  grows : start.Grows d.names
  drawn : ∀ n ∈ d.graph.names, start.Drawn d.names n

/-- One draft has the tasks of the other. -/
def Draft.Within (d d' : Draft) : Prop := ∀ n ∈ d.graph.names, n ∈ d'.graph.names

variable {α β : Type} {registry : Registry} {needed more known : List String}

/-- On a draft that has the known tasks, a step of compilation fails with the first function that
is not registered, and succeeds if there is none. What it returns refers to tasks of the draft. -/
def Compile.Answers (registry : Registry) (needed known : List String) (x : Compile α)
    (refs : α → List String) : Prop :=
  ∀ (start : NameSupply) (d : Draft), d.From start → (∀ n ∈ known, n ∈ d.graph.names) →
    ∃ d', d'.From start ∧ d.Within d' ∧
      match registry.missing? needed with
      | none => ∃ a, x d = (.ok a, d') ∧ ∀ r ∈ refs a, r ∈ d'.graph.names
      | some name => x d = (.error (.unknownFunction name), d')

namespace Compile.Answers

variable {refs : α → List String} {refs' : β → List String}

theorem pure {a : α} (hinside : ∀ r ∈ refs a, r ∈ known) :
    Answers registry [] known (pure a : Compile α) refs := by
  intro start d horigin hold
  exact ⟨d, horigin, fun _ hmem => hmem, a, rfl, fun r hmem => hold r (hinside r hmem)⟩

/-- What the first step returns may be referred to by the second. -/
theorem bind {x : Compile α} {f : α → Compile β} (hfirst : Answers registry needed known x refs)
    (hsecond : ∀ a, Answers registry more (known ++ refs a) (f a) refs') :
    Answers registry (needed ++ more) known (x >>= f) refs' := by
  intro start d horigin hold
  obtain ⟨m, horigin₁, hwithin₁, hanswer₁⟩ := hfirst start d horigin hold
  have hbound : (x >>= f) d = ExceptT.bindCont f (x d).1 (x d).2 := rfl
  have hmissing : registry.missing? (needed ++ more) =
      (registry.missing? needed).or (registry.missing? more) := List.find?_append
  rw [hmissing, hbound]
  cases habsent : registry.missing? needed with
  | some name =>
    rw [habsent] at hanswer₁
    exact ⟨m, horigin₁, hwithin₁, by rw [hanswer₁]; rfl⟩
  | none =>
    rw [habsent] at hanswer₁
    obtain ⟨a, hran, hinside⟩ := hanswer₁
    have hold' : ∀ n ∈ known ++ refs a, n ∈ m.graph.names :=
      List.forall_mem_append.2 ⟨fun n hmem => hwithin₁ n (hold n hmem), hinside⟩
    obtain ⟨d', horigin₂, hwithin₂, hanswer₂⟩ := hsecond a start m horigin₁ hold'
    refine ⟨d', horigin₂, fun n hmem => hwithin₂ n (hwithin₁ n hmem), ?_⟩
    rw [hran]
    exact hanswer₂

theorem of_eq {x : Compile α} (h : Answers registry needed known x refs) (hsame : needed = more) :
    Answers registry more known x refs := hsame ▸ h

theorem lookup {name : String} :
    Answers registry [name] known (lookup registry name) fun _ => [] := by
  intro start d horigin _
  refine ⟨d, horigin, fun _ hmem => hmem, ?_⟩
  unfold Registry.missing? ColumnFlow.lookup Registry.contains Registry.get?
  rw [List.find?_singleton, Table.contains_eq_isSome]
  cases registry.functions.get? name with
  | none => rfl
  | some f => exact ⟨f, rfl, List.forall_mem_nil _⟩

/-- A task that depends on known tasks is added under a new name. -/
theorem emit {category : String} {t : Task} (hinside : ∀ r ∈ t.dependencies, r ∈ known) :
    Answers registry [] known (emit category t) fun n => [n] := by
  intro start d horigin hold
  have hfresh : ∀ n ∈ d.graph.names, n ≠ (d.names.next category).1 :=
    fun n hmem => (horigin.drawn n hmem).ne_next
  have hadded : ∃ g, d.graph.add (d.names.next category).1 t = .ok g := by
    unfold Graph.add
    rw [if_neg, if_neg]
    · exact ⟨_, rfl⟩
    · exact fun hitself => hfresh _ (hold _ (hinside _ hitself)) rfl
    · exact fun htaken => hfresh _ ((Table.contains_iff _ _).1 htaken) rfl
  obtain ⟨g, hadded⟩ := hadded
  obtain ⟨hnames, -⟩ := Graph.tasks_add hadded
  refine ⟨⟨(d.names.next category).2, g⟩, ⟨horigin.grows.trans NameSupply.grows_next, ?_⟩, ?_,
    (d.names.next category).1, ?_, ?_⟩
  · change ∀ n ∈ g.names, _
    rw [hnames, List.forall_mem_append]
    refine ⟨fun n hmem => (horigin.drawn n hmem).mono_right NameSupply.grows_next, ?_⟩
    exact List.forall_mem_singleton.2 (NameSupply.drawn_next.mono_left horigin.grows)
  · intro n hmem
    change n ∈ g.names
    rw [hnames]
    exact List.mem_append_left _ hmem
  · simp only [ColumnFlow.emit, hadded]
  · refine List.forall_mem_singleton.2 ?_
    change _ ∈ g.names
    rw [hnames]
    exact List.mem_append_right _ List.mem_cons_self

theorem emitEval {e : Expr} : Answers registry [] known (emitEval e) fun n => [n] := by
  refine emit fun r hmem => ?_
  rcases Task.mem_dependencies_iff.1 hmem with href | hafter
  · rw [Task.eval, Task.of, Task.refs, Arg.refsAll_map] at href
    cases href
  · cases hafter

theorem emitCall {f : Function} {name : String} {args : List Arg}
    (hinside : ∀ r ∈ Arg.refsAll args, r ∈ known) :
    Answers registry [] known (emitCall f name args) fun n => [n] := by
  refine emit fun r hmem => ?_
  rcases Task.mem_dependencies_iff.1 hmem with href | hafter
  · exact hinside r href
  · cases hafter

end Compile.Answers

/-! ## Compilation -/

open Compile

mutual

/-- Compiling an expression asks for its functions in order, and fails on the first one missing. -/
theorem compile_answers : (e : Expr) → {known : List String} →
    Answers registry e.lookups known (e.compile registry) fun n => [n]
  | .literal value, known => by
    rw [Expr.compile, Expr.lookups]
    exact .emit (List.forall_mem_nil _)
  | .symbol x none, known => by
    rw [Expr.compile, Expr.lookups]
    exact .emitEval
  | .symbol x (some s), known => by
    rw [Expr.compile, Expr.lookups]
    refine (Answers.lookup.bind fun f => Answers.emitEval.bind fun source =>
      (compileSubscript_answers s).bind fun extra => .emitCall ?_).of_eq (by simp)
    grind [Arg.refsAll, Arg.refs]
  | .call function es s, known => by
    rw [Expr.compile, Expr.lookups]
    refine (Answers.lookup.bind fun f => (compileAll_answers es).bind fun args =>
      (compileSubscript?_answers s).bind fun extra => .emitCall ?_).of_eq (by simp)
    grind [Arg.refsAll_append]
  | .binary op a b, known => by
    rw [Expr.compile, Expr.lookups]
    split
    · exact .emitEval
    · refine (Answers.lookup.bind fun f => (compile_answers a).bind fun x =>
        (compile_answers b).bind fun y => .emitCall ?_).of_eq (by simp)
      grind [Arg.refsAll, Arg.refs]
  | .unary op a, known => by
    rw [Expr.compile, Expr.lookups]
    split
    · exact .emitEval
    · refine (Answers.lookup.bind fun f => (compile_answers a).bind fun x =>
        .emitCall ?_).of_eq (by simp)
      grind [Arg.refsAll, Arg.refs]

theorem compileAll_answers : (es : List Expr) → {known : List String} →
    Answers registry (Expr.lookupsAll es) known (Expr.compileAll registry es) Arg.refsAll
  | [], known => by
    rw [Expr.compileAll, Expr.lookupsAll]
    exact .pure (by simp [Arg.refsAll])
  | e :: es, known => by
    rw [Expr.compileAll, Expr.lookupsAll]
    refine ((compile_answers e).bind fun task => (compileAll_answers es).bind fun tasks =>
      .pure ?_).of_eq (by simp)
    grind [Arg.refsAll, Arg.refs]

theorem compile?_answers : (part : Option Expr) → {known : List String} →
    Answers registry (Expr.lookups? part) known (Expr.compile? registry part) Arg.refs
  | none, known => by
    rw [Expr.compile?, Expr.lookups?]
    exact .pure (by simp [Arg.refs])
  | some e, known => by
    rw [Expr.compile?, Expr.lookups?]
    refine ((compile_answers e).bind fun task => .pure ?_).of_eq (by simp)
    grind [Arg.refs]

/-- Compiling a subscript asks for the functions of its bounds. -/
theorem compileSubscript_answers : (s : Subscript) → {known : List String} →
    Answers registry s.lookups known (s.compile registry) Arg.refs
  | .index e, known => by
    rw [Subscript.compile, Subscript.lookups]
    refine ((compile_answers e).bind fun task => .pure ?_).of_eq (by simp)
    grind [Arg.refs]
  | .slice lower upper step, known => by
    rw [Subscript.compile, Subscript.lookups]
    refine ((compile?_answers lower).bind fun x => (compile?_answers upper).bind fun y =>
      (compile?_answers step).bind fun z => .pure ?_).of_eq (by simp)
    grind [Arg.refsAll, Arg.refs]

theorem compileSubscript?_answers : (s : Option Subscript) → {known : List String} →
    Answers registry (Subscript.lookups? s) known (Subscript.compile? registry s)
      fun extra => Arg.refsAll extra.toList
  | none, known => by
    rw [Subscript.compile?, Subscript.lookups?]
    exact .pure (by simp [Arg.refsAll])
  | some s, known => by
    rw [Subscript.compile?, Subscript.lookups?]
    refine ((compileSubscript_answers s).bind fun extra => .pure ?_).of_eq (by simp)
    grind [Arg.refsAll]

end

/-- An expression compiles if everything it looks up is registered; otherwise the first function
that is not is reported. The tasks are named from the supply. -/
theorem buildWith_answers (e : Expr) (names : NameSupply) (registry : Registry) :
    ∃ names', names.Grows names' ∧ match registry.missing? e.lookups with
      | none => ∃ g output, e.buildWith names registry = (.ok (g, output), names') ∧
          output ∈ g.names ∧ ∀ n ∈ g.names, names.Drawn names' n
      | some name => e.buildWith names registry = (.error (.unknownFunction name), names') := by
  have horigin : Draft.From names ⟨names, .empty⟩ := ⟨.refl names, List.forall_mem_nil _⟩
  obtain ⟨d', horigin', -, hanswer⟩ :=
    @compile_answers registry e [] names _ horigin (List.forall_mem_nil _)
  refine ⟨d'.names, horigin'.grows, ?_⟩
  unfold Expr.buildWith
  cases habsent : registry.missing? e.lookups with
  | none =>
    rw [habsent] at hanswer
    obtain ⟨output, hran, hinside⟩ := hanswer
    refine ⟨d'.graph, output, by rw [hran], hinside output List.mem_cons_self, horigin'.drawn⟩
  | some name =>
    rw [habsent] at hanswer
    rw [hanswer]

end ColumnFlow
