import ColumnFlow.Proofs.Editing
import ColumnFlow.Proofs.Interpretation

/-!
# What compilation emits

`Emits` relates the parts of an expression to the tasks that compute them and to the arguments
under which their values are found. Compilation adds such tasks to a graph, at its end.
-/

namespace ColumnFlow

/-! ## Emitted tasks -/

/-- The tasks that compute the parts, in the order in which they are added, and the arguments
that stand for the values. -/
inductive Emits (registry : Registry) : List Part → List Arg → List (String × Task) → Prop where
  | none : Emits registry [] [] []
  | more {p : Part} {ps : List Part} {a : Arg} {as : List Arg} {first rest : List (String × Task)} :
      Emits registry [p] [a] first → Emits registry ps as rest →
      Emits registry (p :: ps) (a :: as) (first ++ rest)
  | constant {name : String} {value : Literal} :
      Emits registry [.expr (.literal value)] [.ref name] [(name, .constant value)]
  | eval {name : String} {e : Expr} : e.isPure → (∀ value, e ≠ .literal value) →
      Emits registry [.expr e] [.ref name] [(name, .eval e.render e.symbols)]
  | call {name function : String} {e : Expr} {f : Function} {parts : List Part} {args : List Arg}
      {code : List (String × Task)} :
      e.operation? = some (function, parts) → registry.get? function = some f →
      Emits registry parts args code →
      Emits registry [.expr e] [.ref name] (code ++ [(name, .call f args)])
  | index {e : Expr} {a : Arg} {code : List (String × Task)} :
      Emits registry [.expr e] [a] code → Emits registry [.subscript (.index e)] [a] code
  | slice {lower upper step : Option Expr} {args : List Arg} {code : List (String × Task)} :
      Emits registry [.bound lower, .bound upper, .bound step] args code →
      Emits registry [.subscript (.slice lower upper step)] [.tuple args] code
  | omitted : Emits registry [.bound .none] [.absent] []
  | given {e : Expr} {a : Arg} {code : List (String × Task)} :
      Emits registry [.expr e] [a] code → Emits registry [.bound (some e)] [a] code

variable {registry : Registry}

/-- The tasks of two lists of parts stand one behind the other. -/
theorem Emits.append {ps qs : List Part} {as bs : List Arg} {first rest : List (String × Task)}
    (h : Emits registry ps as first) (h' : Emits registry qs bs rest) :
    Emits registry (ps ++ qs) (as ++ bs) (first ++ rest) := by
  induction h with
  | none => exact h'
  | more hhead _ _ ih =>
    rw [List.append_assoc]
    exact .more hhead ih
  | constant => exact .more .constant h'
  | eval hpure hcompound => exact .more (.eval hpure hcompound) h'
  | call hcalls hknown hparts => exact .more (.call hcalls hknown hparts) h'
  | index hposition => exact .more (.index hposition) h'
  | slice hbounds => exact .more (.slice hbounds) h'
  | omitted => exact .more .omitted h'
  | given hpart => exact .more (.given hpart) h'

/-! ## Steps of compilation -/

/-- Compilation goes from one draft to the other, adding tasks at the end of the graph. -/
def Draft.Adds (d : Draft) (code : List (String × Task)) (d' : Draft) : Prop :=
  d'.graph.tasks.entries = d.graph.tasks.entries ++ code

variable {α β : Type} {d d' : Draft}

theorem Draft.Adds.refl : d.Adds [] d := (List.append_nil _).symm

theorem Draft.Adds.trans {m : Draft} {first rest : List (String × Task)} (h : d.Adds first m)
    (h' : m.Adds rest d') : d.Adds (first ++ rest) d' := by
  unfold Adds at *
  rw [h', h, List.append_assoc]

theorem compile_bind_ok {x : Compile α} {f : α → Compile β} {b : β}
    (h : (x >>= f) d = (.ok b, d')) : ∃ a m, x d = (.ok a, m) ∧ f a m = (.ok b, d') := by
  change ExceptT.bindCont f (x d).1 (x d).2 = _ at h
  cases hran : x d with
  | mk r m =>
    rw [hran] at h
    cases r with
    | error e => cases h
    | ok a => exact ⟨a, m, rfl, h⟩

theorem lookup_bind_ok {name : String} {k : Function → Compile β} {b : β}
    (h : (lookup registry name >>= k) d = (.ok b, d')) :
    ∃ f, registry.get? name = some f ∧ k f d = (.ok b, d') := by
  obtain ⟨f, m, hfound, h⟩ := compile_bind_ok h
  unfold lookup at hfound
  cases hknown : registry.get? name with
  | none =>
    rw [hknown] at hfound
    cases hfound
  | some f' =>
    rw [hknown] at hfound
    cases hfound
    exact ⟨f, rfl, h⟩

/-- A task is emitted under the next name of its category, unless that name is taken. -/
theorem emit_eq_ok_iff {category name : String} {t : Task} :
    emit category t d = (.ok name, d') ↔
      name = (d.names.next category).1 ∧ d.graph.add name t = .ok d'.graph ∧
        d'.names = (d.names.next category).2 := by
  unfold emit
  dsimp only
  constructor
  · intro hemitted
    split at hemitted
    · next graph hadded =>
      cases hemitted
      exact ⟨rfl, hadded, rfl⟩
    · cases hemitted
  · rintro ⟨rfl, hadded, hsupply⟩
    rw [hadded, ← hsupply]

theorem emit_ok {category name : String} {t : Task} (h : emit category t d = (.ok name, d')) :
    d.Adds [(name, t)] d' := by
  obtain ⟨-, hadded, -⟩ := emit_eq_ok_iff.1 h
  obtain ⟨hfresh, -, hgraph⟩ := Graph.add_eq_ok_iff.1 hadded
  unfold Draft.Adds
  rw [hgraph]
  exact Table.entries_insert hfresh t

/-! ## Compilation -/

mutual

/-- Compiling an expression emits its tasks, the output last. -/
theorem compile_emits : (e : Expr) → {name : String} → {d d' : Draft} →
    e.compile registry d = (.ok name, d') →
    ∃ code, Emits registry [.expr e] [.ref name] code ∧ d.Adds code d'
  | .literal value, name, d, d', h => by
    rw [Expr.compile] at h
    exact ⟨_, .constant, emit_ok h⟩
  | .symbol x none, name, d, d', h => by
    rw [Expr.compile] at h
    exact ⟨_, .eval rfl (fun _ heq => by cases heq), emit_ok h⟩
  | .symbol x (some s), name, d, d', h => by
    rw [Expr.compile] at h
    obtain ⟨f, hknown, h⟩ := lookup_bind_ok h
    obtain ⟨source, _, hfirst, h⟩ := compile_bind_ok h
    obtain ⟨extra, _, hsecond, h⟩ := compile_bind_ok h
    obtain ⟨code, hemits, hadds⟩ := compileSubscript_emits s hsecond
    have hcolumn : Emits registry [.expr (.column x)] [.ref source] _ :=
      .eval rfl fun _ heq => by cases heq
    exact ⟨_, .call rfl hknown (.more hcolumn hemits), ((emit_ok hfirst).trans hadds).trans
      (emit_ok h)⟩
  | .call function es s, name, d, d', h => by
    rw [Expr.compile] at h
    obtain ⟨f, hknown, h⟩ := lookup_bind_ok h
    obtain ⟨args, _, hfirst, h⟩ := compile_bind_ok h
    obtain ⟨extra, _, hsecond, h⟩ := compile_bind_ok h
    obtain ⟨code, hemits, hadds⟩ := compileAll_emits es hfirst
    obtain ⟨code', hemits', hadds'⟩ := compileSubscript?_emits s hsecond
    exact ⟨_, .call rfl hknown (hemits.append hemits'), (hadds.trans hadds').trans (emit_ok h)⟩
  | .binary op a b, name, d, d', h => by
    rw [Expr.compile] at h
    split at h
    · next hpure => exact ⟨_, .eval hpure (fun _ heq => by cases heq), emit_ok h⟩
    · next himpure =>
      obtain ⟨f, hknown, h⟩ := lookup_bind_ok h
      obtain ⟨x, _, hfirst, h⟩ := compile_bind_ok h
      obtain ⟨y, _, hsecond, h⟩ := compile_bind_ok h
      obtain ⟨code, hemits, hadds⟩ := compile_emits a hfirst
      obtain ⟨code', hemits', hadds'⟩ := compile_emits b hsecond
      exact ⟨_, .call (if_neg himpure) hknown (.more hemits hemits'),
        (hadds.trans hadds').trans (emit_ok h)⟩
  | .unary op a, name, d, d', h => by
    rw [Expr.compile] at h
    split at h
    · next hpure => exact ⟨_, .eval hpure (fun _ heq => by cases heq), emit_ok h⟩
    · next himpure =>
      obtain ⟨f, hknown, h⟩ := lookup_bind_ok h
      obtain ⟨x, _, hfirst, h⟩ := compile_bind_ok h
      obtain ⟨code, hemits, hadds⟩ := compile_emits a hfirst
      exact ⟨_, .call (if_neg himpure) hknown hemits, hadds.trans (emit_ok h)⟩

theorem compileAll_emits : (es : List Expr) → {args : List Arg} → {d d' : Draft} →
    Expr.compileAll registry es d = (.ok args, d') →
    ∃ code, Emits registry (es.map .expr) args code ∧ d.Adds code d'
  | [], args, d, d', h => by
    rw [Expr.compileAll] at h
    cases h
    exact ⟨[], .none, .refl⟩
  | e :: es, args, d, d', h => by
    rw [Expr.compileAll] at h
    obtain ⟨task, _, hfirst, h⟩ := compile_bind_ok h
    obtain ⟨tasks, _, hsecond, h⟩ := compile_bind_ok h
    cases h
    obtain ⟨code, hemits, hadds⟩ := compile_emits e hfirst
    obtain ⟨code', hemits', hadds'⟩ := compileAll_emits es hsecond
    exact ⟨_, .more hemits hemits', hadds.trans hadds'⟩

theorem compile?_emits : (part : Option Expr) → {a : Arg} → {d d' : Draft} →
    Expr.compile? registry part d = (.ok a, d') →
    ∃ code, Emits registry [.bound part] [a] code ∧ d.Adds code d'
  | none, a, d, d', h => by
    rw [Expr.compile?] at h
    cases h
    exact ⟨[], .omitted, .refl⟩
  | some e, a, d, d', h => by
    rw [Expr.compile?] at h
    obtain ⟨task, _, hfirst, h⟩ := compile_bind_ok h
    cases h
    obtain ⟨code, hemits, hadds⟩ := compile_emits e hfirst
    exact ⟨code, .given hemits, hadds⟩

/-- Compiling a subscript emits the tasks of its bounds, in their order. -/
theorem compileSubscript_emits : (s : Subscript) → {a : Arg} → {d d' : Draft} →
    s.compile registry d = (.ok a, d') →
    ∃ code, Emits registry [.subscript s] [a] code ∧ d.Adds code d'
  | .index e, a, d, d', h => by
    rw [Subscript.compile] at h
    obtain ⟨task, _, hfirst, h⟩ := compile_bind_ok h
    cases h
    obtain ⟨code, hemits, hadds⟩ := compile_emits e hfirst
    exact ⟨code, .index hemits, hadds⟩
  | .slice lower upper step, a, d, d', h => by
    rw [Subscript.compile] at h
    obtain ⟨x, _, hfirst, h⟩ := compile_bind_ok h
    obtain ⟨y, _, hsecond, h⟩ := compile_bind_ok h
    obtain ⟨z, _, hthird, h⟩ := compile_bind_ok h
    cases h
    obtain ⟨code₁, hemits₁, hadds₁⟩ := compile?_emits lower hfirst
    obtain ⟨code₂, hemits₂, hadds₂⟩ := compile?_emits upper hsecond
    obtain ⟨code₃, hemits₃, hadds₃⟩ := compile?_emits step hthird
    exact ⟨_, .slice (.more hemits₁ (.more hemits₂ hemits₃)), hadds₁.trans (hadds₂.trans hadds₃)⟩

theorem compileSubscript?_emits : (s : Option Subscript) → {a : Option Arg} → {d d' : Draft} →
    Subscript.compile? registry s d = (.ok a, d') →
    ∃ code, Emits registry (s.map .subscript).toList a.toList code ∧ d.Adds code d'
  | none, a, d, d', h => by
    rw [Subscript.compile?] at h
    cases h
    exact ⟨[], .none, .refl⟩
  | some s, a, d, d', h => by
    rw [Subscript.compile?] at h
    obtain ⟨x, _, hfirst, h⟩ := compile_bind_ok h
    cases h
    exact compileSubscript_emits s hfirst

end

variable {e : Expr} {names names' : NameSupply} {g : Graph} {output : String}

/-- A graph is compiled on an empty draft. -/
theorem buildWith_eq_ok_iff : e.buildWith names registry = (.ok (g, output), names') ↔
    e.compile registry ⟨names, .empty⟩ = (.ok output, ⟨names', g⟩) := by
  unfold Expr.buildWith
  constructor
  · intro hbuilt
    split at hbuilt
    · next hcompiled =>
      cases hbuilt
      exact hcompiled
    · cases hbuilt
  · intro hcompiled
    rw [hcompiled]

/-- A compiled graph holds what the expression emits and nothing else. -/
theorem buildWith_emits (hbuilt : e.buildWith names registry = (.ok (g, output), names')) :
    Emits registry [.expr e] [.ref output] g.tasks.entries := by
  obtain ⟨code, hemits, hadds⟩ := compile_emits e (buildWith_eq_ok_iff.1 hbuilt)
  cases (hadds : g.tasks.entries = code)
  exact hemits

end ColumnFlow
