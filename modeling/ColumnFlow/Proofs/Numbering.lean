import Mathlib.Logic.Relation
import ColumnFlow.Proofs.Editing
import ColumnFlow.Proofs.Emission
import ColumnFlow.Proofs.Names

/-!
# Names in turn

Compilation changes a draft only by adding tasks, one after the other, each under the next name of
its category. With fresh names the tasks of each category are therefore numbered from zero in the
order in which they were added.
-/

namespace ColumnFlow

variable {registry : Registry} {α β : Type}

/-! ## Steps -/

/-- The category from which a task is named: constants have one, eval tasks have one, and each
function has one for its calls. -/
inductive Task.InCategory (registry : Registry) : Task → String → Prop where
  | constant {value : Literal} : InCategory registry (.constant value) "constant"
  | eval {text : String} {columns : List String} : InCategory registry (.eval text columns) "eval"
  | call {name : String} {f : Function} {args : List Arg} :
      registry.get? name = some f → InCategory registry (.call f args) ("func-" ++ name)

/-- One task is added to a draft under the next name of its category. -/
inductive Draft.Step (registry : Registry) (d d' : Draft) : Prop where
  | emit {category name : String} {t : Task} :
      t.InCategory registry category → emit category t d = (.ok name, d') → Step registry d d'

/-- Any number of tasks are added. -/
abbrev Draft.Steps (registry : Registry) : Draft → Draft → Prop :=
  Relation.ReflTransGen (Draft.Step registry)

/-- Where the computation succeeds, it has taken steps from one draft to the other. -/
def Compile.Advances (registry : Registry) (x : Compile α) : Prop :=
  ∀ ⦃d a d'⦄, x d = (.ok a, d') → d.Steps registry d'

namespace Compile.Advances

theorem pure {a : α} : Advances registry (pure a : Compile α) := by
  intro d b d' h
  cases h
  exact .refl

theorem bind {x : Compile α} {f : α → Compile β} (hfirst : Advances registry x)
    (hsecond : ∀ a, Advances registry (f a)) : Advances registry (x >>= f) := by
  intro d b d' h
  obtain ⟨a, m, hran, hrest⟩ := compile_bind_ok h
  exact (hfirst hran).trans (hsecond a hrest)

theorem lookup_bind {name : String} {k : Function → Compile β}
    (hknown : ∀ f, registry.get? name = some f → Advances registry (k f)) :
    Advances registry (lookup registry name >>= k) := by
  intro d b d' h
  obtain ⟨f, hfound, hrest⟩ := lookup_bind_ok h
  exact hknown f hfound hrest

theorem emit {category : String} {t : Task} (hown : t.InCategory registry category) :
    Advances registry (emit category t) :=
  fun _ _ _ h => .single (.emit hown h)

theorem emitEval {e : Expr} : Advances registry (emitEval e) := .emit .eval

theorem emitCall {f : Function} {name : String} {args : List Arg}
    (hknown : registry.get? name = some f) : Advances registry (emitCall f name args) :=
  .emit (.call hknown)

end Compile.Advances

open Compile

mutual

/-- Compiling an expression changes a draft by steps only. -/
theorem Expr.compile_advances : (e : Expr) → Compile.Advances registry (e.compile registry)
  | .literal value => by
    rw [Expr.compile]
    exact .emit .constant
  | .symbol x none => by
    rw [Expr.compile]
    exact .emitEval
  | .symbol x (some s) => by
    rw [Expr.compile]
    exact .lookup_bind fun f hknown => Advances.emitEval.bind fun source =>
      s.compile_advances.bind fun extra => .emitCall hknown
  | .call function es s => by
    rw [Expr.compile]
    exact .lookup_bind fun f hknown => (Expr.compileAll_advances es).bind fun args =>
      (Subscript.compile?_advances s).bind fun extra => .emitCall hknown
  | .binary op a b => by
    rw [Expr.compile]
    split
    · exact .emitEval
    · exact .lookup_bind fun f hknown => a.compile_advances.bind fun x =>
        b.compile_advances.bind fun y => .emitCall hknown
  | .unary op a => by
    rw [Expr.compile]
    split
    · exact .emitEval
    · exact .lookup_bind fun f hknown => a.compile_advances.bind fun x => .emitCall hknown

theorem Expr.compileAll_advances : (es : List Expr) →
    Compile.Advances registry (Expr.compileAll registry es)
  | [] => by
    rw [Expr.compileAll]
    exact .pure
  | e :: es => by
    rw [Expr.compileAll]
    exact e.compile_advances.bind fun task => (Expr.compileAll_advances es).bind fun tasks => .pure

theorem Expr.compile?_advances : (part : Option Expr) →
    Compile.Advances registry (Expr.compile? registry part)
  | none => by
    rw [Expr.compile?]
    exact .pure
  | some e => by
    rw [Expr.compile?]
    exact e.compile_advances.bind fun task => .pure

theorem Subscript.compile_advances : (s : Subscript) →
    Compile.Advances registry (s.compile registry)
  | .index position => by
    rw [Subscript.compile]
    exact position.compile_advances.bind fun task => .pure
  | .slice lower upper step => by
    rw [Subscript.compile]
    exact (Expr.compile?_advances lower).bind fun x => (Expr.compile?_advances upper).bind fun y =>
      (Expr.compile?_advances step).bind fun z => .pure

theorem Subscript.compile?_advances : (s : Option Subscript) →
    Compile.Advances registry (Subscript.compile? registry s)
  | none => by
    rw [Subscript.compile?]
    exact .pure
  | some s => by
    rw [Subscript.compile?]
    exact s.compile_advances.bind fun extra => .pure

end

/-! ## Numbers in turn -/

namespace Draft

/-- The tasks of each category have been numbered from zero, as far as numbers have been drawn, in
the order in which they were added. -/
structure Numbered (registry : Registry) (d : Draft) : Prop where
  coherent : d.graph.Coherent
  inTurn : ∀ category, ((List.range (d.names.count category)).map
    (NameSupply.name category)).Sublist d.graph.names
  drawn : ∀ category number, NameSupply.name category number ∈ d.graph.names →
    number < d.names.count category
  named : ∀ n t, d.graph.get? n = some t → ∃ category number,
    n = NameSupply.name category number ∧ t.InCategory registry category

variable {d d' : Draft}

theorem numbered_start : Numbered registry ⟨.fresh, .empty⟩ :=
  ⟨Graph.coherent_empty, fun _ => List.Sublist.refl _, nofun, nofun⟩

/-- A step takes the next number of its category. -/
theorem Numbered.step (hnumbered : Numbered registry d) (hstep : d.Step registry d') :
    Numbered registry d' := by
  obtain @⟨category, name, t, hown, hemitted⟩ := hstep
  obtain ⟨rfl, hadded, hsupply⟩ := emit_eq_ok_iff.1 hemitted
  obtain ⟨hnames, hgets⟩ := Graph.tasks_add hadded
  have hcount := d.names.count_next category
  rw [← hsupply] at hcount
  refine ⟨hnumbered.coherent.add hadded, fun other => ?_, fun other number hmem => ?_,
    fun n t' hget => ?_⟩
  · rw [hcount, hnames]
    split
    · next hsame =>
      subst hsame
      rw [List.range_succ, List.map_append]
      exact (hnumbered.inTurn other).append (.refl _)
    · exact (hnumbered.inTurn other).trans (List.sublist_append_left _ _)
  · rw [hcount]
    rw [hnames] at hmem
    rcases List.mem_append.1 hmem with hold | hnew
    · have hearlier := hnumbered.drawn other number hold
      split
      · next hsame => exact hsame ▸ Nat.lt_succ_of_lt hearlier
      · exact hearlier
    · obtain ⟨rfl, rfl⟩ := NameSupply.name_inj.1 (List.mem_singleton.1 hnew)
      rw [if_pos rfl]
      exact Nat.lt_succ_self _
  · rw [hgets] at hget
    split at hget
    · next hsame =>
      cases hget
      exact ⟨category, _, hsame, hown⟩
    · exact hnumbered.named n t' hget

/-- A draft that changes by steps stays numbered. -/
theorem Numbered.steps (hnumbered : Numbered registry d) (hsteps : d.Steps registry d') :
    Numbered registry d' := by
  induction hsteps with
  | refl => exact hnumbered
  | tail _ hstep ih => exact ih.step hstep

end Draft

/-- A graph that is compiled with fresh names is numbered in turn. -/
theorem numbered_of_build {e : Expr} {names : NameSupply} {g : Graph} {output : String}
    (hbuilt : e.buildWith .fresh registry = (.ok (g, output), names)) :
    Draft.Numbered registry ⟨names, g⟩ :=
  Draft.numbered_start.steps (e.compile_advances (buildWith_eq_ok_iff.1 hbuilt))

end ColumnFlow
