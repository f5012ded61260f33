import ColumnFlow.Proofs.Emission
import ColumnFlow.Proofs.Readback

/-!
# Eval tasks and the expressions they stand for

Compilation gives each largest pure part of an expression an eval task of its own, in the order
of the parts. The task holds the text of its part and asks for the columns of the part, while the
evaluator reads the text again: the two agree exactly if the text reads back.
-/

namespace ColumnFlow

/-! ## Pure parts -/

mutual

/-- The largest pure parts of an expression from left to right, without literals that stand on
their own. A name with a subscript counts as the column it is taken from. -/
def Expr.pureParts : Expr → List Expr
  | .literal _ => []
  | .symbol name subscript => .column name :: Subscript.pureParts? subscript
  | .call _ arguments subscript => Expr.purePartsAll arguments ++ Subscript.pureParts? subscript
  | .binary op left right =>
    if left.isPure && right.isPure then [.binary op left right]
    else left.pureParts ++ right.pureParts
  | .unary op operand => if operand.isPure then [.unary op operand] else operand.pureParts

def Expr.purePartsAll : List Expr → List Expr
  | [] => []
  | e :: es => e.pureParts ++ Expr.purePartsAll es

def Expr.pureParts? : Option Expr → List Expr
  | none => []
  | some e => e.pureParts

def Subscript.pureParts : Subscript → List Expr
  | .index position => position.pureParts
  | .slice lower upper step =>
    Expr.pureParts? lower ++ (Expr.pureParts? upper ++ Expr.pureParts? step)

def Subscript.pureParts? : Option Subscript → List Expr
  | none => []
  | some s => s.pureParts

end

section

variable {P : String → Prop} {Q : Literal → Prop}

mutual

/-- The pure parts are pure and made of the names and the literals of the expression. -/
theorem Expr.all_pureParts : (e : Expr) → e.All P Q → ∀ s ∈ e.pureParts, s.isPure ∧ s.All P Q
  | .literal _, _ => List.forall_mem_nil _
  | .symbol _ s, h => List.forall_mem_cons.2 ⟨⟨rfl, h.1, trivial⟩, Subscript.all_pureParts? s h.2⟩
  | .call _ es s, h =>
    List.forall_mem_append.2 ⟨Expr.all_purePartsAll es h.2.1, Subscript.all_pureParts? s h.2.2⟩
  | .binary op a b, h => by
    rw [Expr.pureParts]
    split
    · next hpure => exact List.forall_mem_singleton.2 ⟨hpure, h⟩
    · exact List.forall_mem_append.2 ⟨Expr.all_pureParts a h.1, Expr.all_pureParts b h.2⟩
  | .unary op a, h => by
    rw [Expr.pureParts]
    split
    · next hpure => exact List.forall_mem_singleton.2 ⟨hpure, h⟩
    · exact Expr.all_pureParts a h

theorem Expr.all_purePartsAll : (es : List Expr) → Expr.AllOf P Q es →
    ∀ s ∈ Expr.purePartsAll es, s.isPure ∧ s.All P Q
  | [], _ => List.forall_mem_nil _
  | e :: es, h => List.forall_mem_append.2 ⟨Expr.all_pureParts e h.1, Expr.all_purePartsAll es h.2⟩

theorem Expr.all_pureParts? : (part : Option Expr) → Expr.All? P Q part →
    ∀ s ∈ Expr.pureParts? part, s.isPure ∧ s.All P Q
  | none, _ => List.forall_mem_nil _
  | some e, h => Expr.all_pureParts e h

theorem Subscript.all_pureParts : (s : Subscript) → s.All P Q →
    ∀ e ∈ s.pureParts, e.isPure ∧ e.All P Q
  | .index e, h => Expr.all_pureParts e h
  | .slice a b c, h =>
    List.forall_mem_append.2 ⟨Expr.all_pureParts? a h.1,
      List.forall_mem_append.2 ⟨Expr.all_pureParts? b h.2.1, Expr.all_pureParts? c h.2.2⟩⟩

theorem Subscript.all_pureParts? : (s : Option Subscript) → Subscript.All? P Q s →
    ∀ e ∈ Subscript.pureParts? s, e.isPure ∧ e.All P Q
  | none, _ => List.forall_mem_nil _
  | some s, h => Subscript.all_pureParts s h

end

end

/-- The largest pure parts of a part. -/
def Part.pureParts : Part → List Expr
  | .expr e => e.pureParts
  | .subscript s => s.pureParts
  | .bound b => Expr.pureParts? b

theorem flatMap_pureParts_expr (es : List Expr) :
    (es.map Part.expr).flatMap Part.pureParts = Expr.purePartsAll es := by
  induction es with
  | nil => rfl
  | cons e es ih =>
    rw [List.map_cons, List.flatMap_cons, ih]
    rfl

theorem flatMap_pureParts_subscript (s : Option Subscript) :
    (s.map Part.subscript).toList.flatMap Part.pureParts = Subscript.pureParts? s := by
  cases s with
  | none => rfl
  | some s => exact List.append_nil _

/-- A pure expression that is no literal is the only pure part of itself. -/
theorem pureParts_of_pure {e : Expr} (hpure : e.isPure) (hcompound : ∀ value, e ≠ .literal value) :
    e.pureParts = [e] := by
  cases e with
  | literal value => exact absurd rfl (hcompound value)
  | symbol name s =>
    cases s with
    | none => rfl
    | some s => cases hpure
  | call name es s => cases hpure
  | binary op a b => exact if_pos hpure
  | unary op a => exact if_pos hpure

theorem pureParts_of_operation {e : Expr} {name : String} {parts : List Part}
    (hcalls : e.operation? = some (name, parts)) :
    e.pureParts = parts.flatMap Part.pureParts := by
  unfold Expr.operation? at hcalls
  split at hcalls
  · cases hcalls
    simp [Part.pureParts, Expr.pureParts, Subscript.pureParts?, Expr.column]
  · cases hcalls
    rw [List.flatMap_append, flatMap_pureParts_expr, flatMap_pureParts_subscript]
    rfl
  · split at hcalls
    · cases hcalls
    · next himpure =>
      cases hcalls
      rw [Expr.pureParts, if_neg himpure]
      simp [Part.pureParts]
  · split at hcalls
    · cases hcalls
    · next himpure =>
      cases hcalls
      rw [Expr.pureParts, if_neg himpure]
      simp [Part.pureParts]
  · cases hcalls

/-! ## The tasks of the pure parts -/

/-- Whether the task evaluates a text. -/
def Task.isEval (t : Task) : Bool :=
  match t.work with
  | .eval _ => true
  | _ => false

/-- The tasks of a graph that evaluate texts, in insertion order. -/
def Graph.evalTasks (g : Graph) : List Task := (g.tasks.entries.map Prod.snd).filter Task.isEval

/-- The task of a pure part. -/
def Expr.evalTask (s : Expr) : Task := .eval s.render s.symbols

theorem Expr.columns_evalTask (s : Expr) : s.evalTask.columns = s.symbols :=
  Arg.columnsAll_map s.symbols

variable {registry : Registry} {parts : List Part} {args : List Arg} {code : List (String × Task)}

/-- The code has one eval task for each pure part, in the same order. -/
theorem Emits.evalTasks (h : Emits registry parts args code) :
    (code.map Prod.snd).filter Task.isEval =
      (parts.flatMap Part.pureParts).map Expr.evalTask := by
  induction h with
  | none | constant | omitted => rfl
  | more _ _ ih ih' =>
    rw [List.map_append, List.filter_append, ih, ih', ← List.map_append, ← List.flatMap_append]
    rfl
  | eval hpure hcompound =>
    rw [List.flatMap_singleton, Part.pureParts, pureParts_of_pure hpure hcompound]
    rfl
  | call hcalls _ _ ih =>
    rw [List.map_append, List.filter_append, ih, List.flatMap_singleton, Part.pureParts,
      pureParts_of_operation hcalls]
    exact List.append_nil _
  | index _ ih => exact ih
  | slice _ ih =>
    rw [ih]
    simp [Part.pureParts, Subscript.pureParts]
  | given _ ih => exact ih

/-- A compiled graph has one eval task for each pure part of the expression, in the same order. -/
theorem evalTasks_of_build {e : Expr} {names names' : NameSupply} {g : Graph} {output : String}
    (hbuilt : e.buildWith names registry = (.ok (g, output), names')) :
    g.evalTasks = e.pureParts.map Expr.evalTask := by
  have htasks := (buildWith_emits hbuilt).evalTasks
  rwa [List.flatMap_singleton] at htasks

/-! ## Faithful tasks -/

/-- The task stands for the expression: its text is read as the expression, and the columns it
asks for are the names that the evaluator looks up, in the same order. -/
structure Task.StandsFor (t : Task) (s : Expr) : Prop where
  pure : s.isPure
  text : ∃ text, t.work = .eval text ∧ Expr.parse text = .ok s
  columns : t.columns = s.symbols

/-- The task of a pure part stands for it exactly if the text of the part reads back. -/
theorem Expr.standsFor_evalTask {s : Expr} (hpure : s.isPure)
    (h : s.All ColumnName Literal.Unsigned) : s.evalTask.StandsFor s ↔ s.WellFormed := by
  rw [← Expr.parse_render_iff hpure h]
  constructor
  · rintro ⟨_, ⟨text, ⟨⟩, hread⟩, _⟩
    exact hread
  · intro hread
    exact ⟨hpure, ⟨s.render, rfl, hread⟩, s.columns_evalTask⟩

/-- The eval tasks of a compiled expression are those of its largest pure parts, in order. Each
holds the text of its part and asks for the columns of its part, and it stands for the part exactly
if the numbers in it are finite and its text literals need no escapes. -/
theorem eval_tasks_stand_for_iff {text : String} {e : Expr} {names names' : NameSupply}
    {g : Graph} {output : String} (hparsed : Expr.parse text = .ok e)
    (hbuilt : e.buildWith names registry = (.ok (g, output), names')) :
    List.Forall₂ (fun t s => t.work = .eval s.render ∧ t.args = s.symbols.map .column ∧
      (t.StandsFor s ↔ s.WellFormed)) g.evalTasks e.pureParts := by
  rw [evalTasks_of_build hbuilt, List.forall₂_map_left_iff, List.forall₂_same]
  intro s hmem
  obtain ⟨hpure, hunsigned⟩ := e.all_pureParts (all_of_parse hparsed) s hmem
  exact ⟨rfl, rfl, Expr.standsFor_evalTask hpure hunsigned⟩

/-- Two arguments with a task each, both of which stand for their argument. -/
theorem eval_tasks_stand_for_arguments :
    let e : Expr :=
      .call "pack" [.binary .add (.column "y") (.column "x"), .unary .neg (.column "y")] none
    let registry := Registry.empty.install "pack" fun args => .ok (.tuple args)
    ∃ g output names', e.buildWith .fresh registry = (.ok (g, output), names') ∧
      g.evalTasks = [.eval "y + x" ["y", "x"], .eval "-y" ["y"]] ∧
      List.Forall₂ Task.StandsFor g.evalTasks e.pureParts := by
  intro e registry
  have hpack : ColumnName "pack" := .word (by decide) (by decide)
  have hx : ColumnName "x" := .word (by decide) (by decide)
  have hy : ColumnName "y" := .word (by decide) (by decide)
  have hwellFormed : e.WellFormed :=
    ⟨hpack, ⟨⟨⟨hy, trivial⟩, ⟨hx, trivial⟩⟩, ⟨hy, trivial⟩, trivial⟩, trivial⟩
  have hparsed : Expr.parse e.render = .ok e := Expr.parse_render_of_wellFormed hwellFormed
  obtain ⟨g, output, names', hbuilt⟩ :
    ∃ g output names', e.buildWith .fresh registry = (.ok (g, output), names') := ⟨_, _, _, rfl⟩
  have htasks : g.evalTasks = [.eval "y + x" ["y", "x"], .eval "-y" ["y"]] :=
    evalTasks_of_build hbuilt
  refine ⟨g, output, names', hbuilt, htasks, ?_⟩
  have hwhole := eval_tasks_stand_for_iff hparsed hbuilt
  rw [htasks] at hwhole ⊢
  obtain ⟨⟨_, _, hfirst⟩, hrest⟩ := List.forall₂_cons.1 hwhole
  obtain ⟨⟨_, _, hsecond⟩, _⟩ := List.forall₂_cons.1 hrest
  exact .cons (hfirst.2 ⟨⟨hy, trivial⟩, ⟨hx, trivial⟩⟩) (.cons (hsecond.2 ⟨hy, trivial⟩) .nil)

/-- A number beyond the greatest double is read as infinity. -/
theorem read_overflow : Token.read '1' "e999 + x".toList =
    .ok (.number (Float.ofBits 0x7FF0000000000000), 4) := by
  have hvalue : (Numeral.mk ['1'] [] (some 999)).value = ⟨1, 999, .inl (by decide)⟩ := by
    change Decimal.ofScientific 1 999 = _
    unfold Decimal.ofScientific
    rfl
  have hinfinite : (Numeral.mk ['1'] [] (some 999)).value.toFloat =
      Float.ofBits 0x7FF0000000000000 := by
    rw [hvalue]
    rfl
  rw [← hinfinite]
  rfl

theorem parse_overflow : Expr.parse "1e999 + x" =
    .ok (.binary .add (.literal (.number (Float.ofBits 0x7FF0000000000000))) (.column "x")) := by
  have hcolumn : Scans ("x".toList ++ []) [.name "x"] :=
    scans_name (by decide) (by rintro _ ⟨⟩) scans_nil
  have hscans : Scans ('1' :: "e999 + x".toList) _ :=
    scans_token rfl read_overflow (scans_binaryOp .add hcolumn)
  obtain ⟨lexemes, hscanned, htokens⟩ := hscans 0
  refine Expr.parse_eq_ok_iff.2 ⟨lexemes, hscanned, ?_⟩
  have hleft := derives_number (Float.ofBits 0x7FF0000000000000) BinaryOp.add.leftStrength
    (by decide)
  have hright : Derives (.ofStrength BinaryOp.add.rightStrength) [.name "x"]
    (.expr (.column "x")) :=
    derives_of_le (m := 9) (by decide) (.atom (.symbol (.word (by decide))))
  rw [htokens]
  exact derives_of_le (Nat.zero_le _) (derives_binary hleft hright)

/-- A number that has overflowed is written as `inf`: the task asks for `x` alone, but its text
reads the column `inf` too. -/
theorem eval_task_reads_further_column :
    let e : Expr :=
      .binary .add (.literal (.number (Float.ofBits 0x7FF0000000000000))) (.column "x")
    Expr.parse "1e999 + x" = .ok e ∧
    ∃ g output names', e.buildWith .fresh .empty = (.ok (g, output), names') ∧
      g.evalTasks = [.eval "inf + x" ["x"]] ∧ e.pureParts = [e] ∧
      (Expr.parse "inf + x").map Expr.symbols = .ok ["inf", "x"] ∧
      ¬ List.Forall₂ Task.StandsFor g.evalTasks e.pureParts := by
  intro e
  have hname : ColumnName "x" := .word (by decide) (by decide)
  have hinfinite : ¬ (Float.ofBits 0x7FF0000000000000).isFinite := by decide
  have hunsigned : e.All ColumnName Literal.Unsigned := ⟨rfl, hname, trivial⟩
  have hread : Expr.parse "inf + x" = .ok (.binary .add (.column "inf") (.column "x")) :=
    Expr.parse_render_spelled (e := e) rfl hunsigned ⟨trivial, trivial, trivial⟩
  refine ⟨parse_overflow, _, _, _, rfl, rfl, rfl, by rw [hread]; rfl, ?_⟩
  intro hstands
  obtain ⟨hfirst, _⟩ := List.forall₂_cons.1 hstands
  exact hinfinite ((Expr.standsFor_evalTask rfl hunsigned).1 hfirst).1

end ColumnFlow
