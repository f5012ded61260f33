import Mathlib.Data.List.MinMax
import ColumnFlow.Proofs.Stepwise

/-!
# Evaluation is pointwise

A pure expression that is evaluated over arrays has at each leaf what it comes to on numbers, when
each name stands for its number or for its own leaf at the same index path, cut to the depth of its
array. Evaluation succeeds exactly if all names stand for something and the arrays among them are
compatible, and the result has the shape of the deepest of these.
-/

namespace ColumnFlow

open Jagged

variable {env : Environment} {t : Jagged} {inputs : Inputs} {e : Expr} {v : Value}

/-! ## Evaluation on numbers -/

/-- What an expression comes to when its names stand for numbers. -/
def Expr.number? (at? : String → Option Float) : Expr → Option Float
  | .literal (.number x) => some x
  | .literal (.bool b) => some (flag b)
  | .symbol name none => at? name
  | .binary op left right => do
    let x ← left.number? at?
    let y ← right.number? at?
    return op.kernel x y
  | .unary op operand => do
    let x ← operand.number? at?
    return op.kernel x
  | _ => none

/-- Only the names that occur matter. -/
theorem number?_congr {at? at?' : String → Option Float} :
    (e : Expr) → (∀ name ∈ e.occurrences, at? name = at?' name) → e.number? at? = e.number? at?'
  | .literal (.number _), _ | .literal (.bool _), _ | .literal (.text _), _ => rfl
  | .symbol name none, hsame => hsame name List.mem_cons_self
  | .symbol _ (some _), _ | .call .., _ => rfl
  | .binary op left right, hsame => by
    obtain ⟨hfirst, hsecond⟩ := List.forall_mem_append.1 hsame
    rw [Expr.number?, Expr.number?, number?_congr left hfirst, number?_congr right hsecond]
  | .unary op operand, hsame => by
    rw [Expr.number?, Expr.number?, number?_congr operand hsame]

namespace Operand

/-- The number of an operand at a leaf. -/
def at? (k : Nat) : Operand → Option Float
  | .scalar x => some x
  | .column xs => xs[k]?

theorem at?_map (f : Float → Float) (k : Nat) (x : Operand) :
    (x.map f).at? k = (x.at? k).map f := by
  cases x with
  | scalar x => rfl
  | column xs => exact List.getElem?_map

theorem at?_zip (f : Float → Float → Float) (k : Nat) (x y : Operand) :
    (x.zip f y).at? k = (x.at? k).bind fun a => (y.at? k).map (f a) := by
  cases x with
  | scalar x =>
    cases y with
    | scalar y => rfl
    | column ys => exact List.getElem?_map
  | column xs =>
    cases y with
    | scalar y =>
      change (xs.map fun x => f x y)[k]? = xs[k]?.bind fun a => some (f a y)
      rw [List.getElem?_map]
      cases xs[k]? <;> rfl
    | column ys =>
      rw [zip, at?, at?, at?, List.getElem?_zipWith]
      cases xs[k]? with
      | none => rfl
      | some a => cases ys[k]? <;> rfl

end Operand

/-- Over aligned columns, an expression has at each leaf what it comes to on the numbers there. -/
theorem number?_of_evalOver {k : Nat} : (e : Expr) → {x : Operand} → e.evalOver inputs = .ok x →
    e.number? (fun name => (inputs.get? name).bind (Operand.at? k)) = x.at? k
  | .literal (.number _), _, h | .literal (.bool _), _, h => by
    cases h
    rfl
  | .literal (.text _), _, h => by cases h
  | .symbol name none, x, h => by
    rw [Expr.number?, evalOver_symbol_eq_ok_iff.1 h, Option.bind_some]
  | .symbol _ (some _), _, h | .call .., _, h => by cases h
  | .binary op left right, _, h => by
    obtain ⟨x, y, hfirst, hsecond, rfl⟩ := evalOver_binary_eq_ok_iff.1 h
    rw [Expr.number?, number?_of_evalOver left hfirst, number?_of_evalOver right hsecond,
      Operand.at?_zip]
    cases x.at? k <;> cases y.at? k <;> rfl
  | .unary op operand, _, h => by
    obtain ⟨x, hfirst, rfl⟩ := evalOver_unary_eq_ok_iff.1 h
    rw [Expr.number?, number?_of_evalOver operand hfirst, Operand.at?_map]
    cases x.at? k <;> rfl

/-- An expression with a call or a subscript has no value. -/
theorem pure_of_evalOver : (e : Expr) → {x : Operand} → e.evalOver inputs = .ok x → e.isPure
  | .literal _, _, _ => rfl
  | .symbol _ none, _, _ => rfl
  | .symbol _ (some _), _, h | .call .., _, h => by cases h
  | .binary _ left right, _, h => by
    obtain ⟨x, y, hfirst, hsecond, -⟩ := evalOver_binary_eq_ok_iff.1 h
    exact Bool.and_eq_true_iff.2 ⟨pure_of_evalOver left hfirst, pure_of_evalOver right hsecond⟩
  | .unary _ operand, _, h => by
    obtain ⟨x, hfirst, -⟩ := evalOver_unary_eq_ok_iff.1 h
    exact pure_of_evalOver operand hfirst

/-- The result is one number exactly if every name stands for one. -/
theorem scalar_iff_of_evalOver : (e : Expr) → {x : Operand} → e.evalOver inputs = .ok x →
    ((∃ r, x = .scalar r) ↔ ∀ name ∈ e.occurrences, ∃ r, inputs.get? name = some (.scalar r))
  | .literal (.number _), _, h | .literal (.bool _), _, h => by
    cases h
    exact iff_of_true ⟨_, rfl⟩ (List.forall_mem_nil _)
  | .literal (.text _), _, h => by cases h
  | .symbol name none, x, h => by
    have hnames : (Expr.symbol name none).occurrences = [name] := rfl
    rw [hnames, List.forall_mem_singleton, evalOver_symbol_eq_ok_iff.1 h]
    simp only [Option.some.injEq]
  | .symbol _ (some _), _, h | .call .., _, h => by cases h
  | .binary op left right, _, h => by
    obtain ⟨x, y, hfirst, hsecond, rfl⟩ := evalOver_binary_eq_ok_iff.1 h
    have hnames : (Expr.binary op left right).occurrences =
      left.occurrences ++ right.occurrences := rfl
    rw [hnames, List.forall_mem_append, ← scalar_iff_of_evalOver left hfirst,
      ← scalar_iff_of_evalOver right hsecond]
    cases x <;> cases y <;> simp [Operand.zip]
  | .unary op operand, _, h => by
    obtain ⟨x, hfirst, rfl⟩ := evalOver_unary_eq_ok_iff.1 h
    have hnames : (Expr.unary op operand).occurrences = operand.occurrences := rfl
    rw [hnames, ← scalar_iff_of_evalOver operand hfirst]
    cases x <;> simp [Operand.map]

/-! ## Names -/

namespace Environment

/-- The number that a name stands for at an index path: its own, or its leaf at the path, cut to the
depth of its array. A name that is not bound may be a constant. -/
def numberAt? (env : Environment) (path : List Nat) (name : String) : Option Float :=
  match env.get? name with
  | some (.scalar x) => some x
  | some (.array a) => a.leafAt? (path.take (a.depth + 1))
  | some _ => none
  | none => namedConstant? name

/-- One of the names is bound to the array. -/
def Binds (env : Environment) (names : List String) (a : Jagged) : Prop :=
  ∃ name ∈ names, env.get? name = some (.array a)

/-- No deeper array than this one is bound to one of the names. -/
structure Deepest (env : Environment) (names : List String) (a : Jagged) : Prop where
  binds : env.Binds names a
  depth_le : ∀ b, env.Binds names b → b.depth ≤ a.depth

end Environment

/-- What an expression needs to have a value: it is pure and numeric, each name is bound to a number
or an array or is an unbound constant, and any two of the arrays are compatible. -/
structure Expr.Evaluable (env : Environment) (e : Expr) : Prop where
  pure : e.isPure
  numeric : e.Numeric
  bound : ∀ name ∈ e.symbols, (∃ x, env.get? name = some (.scalar x)) ∨
    (∃ a, env.get? name = some (.array a)) ∨
    env.get? name = none ∧ ∃ x, namedConstant? name = some x
  compatible : ∀ a b, env.Binds e.symbols a → env.Binds e.symbols b → a.Compatible b

section

variable {name : String} {names : List String} {path : List Nat} {a : Jagged} {x : Float}

/-- What a name stands for: the number or the array that it is bound to, or a named constant if it
is not bound. -/
inductive Environment.Means (env : Environment) (name : String) : Float ⊕ Jagged → Prop where
  | scalar {x : Float} : env.get? name = some (.scalar x) → Means env name (.inl x)
  | constant {x : Float} : env.get? name = none → namedConstant? name = some x →
      Means env name (.inl x)
  | array {a : Jagged} : env.get? name = some (.array a) → Means env name (.inr a)

/-- A name is resolved exactly to what it stands for. -/
theorem resolveName_eq_ok_iff {r : Float ⊕ Jagged} :
    resolveName env name = .ok r ↔ env.Means name r := by
  constructor
  · intro hresolved
    unfold resolveName at hresolved
    split at hresolved
    · next hbound =>
      cases hresolved
      exact .scalar hbound
    · next hbound =>
      cases hresolved
      exact .array hbound
    · cases hresolved
    · next hfree =>
      split at hresolved
      · next hconstant =>
        cases hresolved
        exact .constant hfree hconstant
      · cases hresolved
  · rintro (hbound | ⟨hfree, hconstant⟩ | hbound)
    · rw [resolveName, hbound]
    · rw [resolveName, hfree, hconstant]
    · rw [resolveName, hbound]

/-- A name that is resolved to an array is bound to it. -/
theorem get?_of_resolveName (hresolved : resolveName env name = .ok (.inr a)) :
    env.get? name = some (.array a) := by
  cases resolveName_eq_ok_iff.1 hresolved with
  | array hbound => exact hbound

theorem numberAt?_number (hresolved : resolveName env name = .ok (.inl x)) :
    env.numberAt? path name = some x := by
  unfold Environment.numberAt?
  rcases resolveName_eq_ok_iff.1 hresolved with hbound | ⟨hfree, hconstant⟩
  · rw [hbound]
  · rw [hfree, hconstant]

theorem numberAt?_array (hresolved : resolveName env name = .ok (.inr a)) :
    env.numberAt? path name = a.leafAt? (path.take (a.depth + 1)) := by
  unfold Environment.numberAt?
  rw [get?_of_resolveName hresolved]

/-- The arrays that some of the names are bound to. -/
def Environment.arrays (env : Environment) (names : List String) : List Jagged :=
  names.filterMap fun name =>
    match env.get? name with
    | some (.array a) => some a
    | _ => none

theorem mem_arrays_iff : a ∈ env.arrays names ↔ env.Binds names a := by
  rw [Environment.arrays, List.mem_filterMap]
  refine exists_congr fun name => and_congr_right fun _ => ?_
  cases env.get? name with
  | none => simp
  | some v => cases v <;> simp

theorem exists_deepest (env : Environment) (names : List String) :
    (∀ a, ¬ env.Binds names a) ∨ ∃ a, env.Deepest names a := by
  cases hfound : (env.arrays names).argmax Jagged.depth with
  | none =>
    refine .inl fun a hbinds => ?_
    have hnone := mem_arrays_iff.2 hbinds
    rw [List.argmax_eq_none.1 hfound] at hnone
    cases hnone
  | some a =>
    refine .inr ⟨a, mem_arrays_iff.1 (List.argmax_mem hfound), fun b hbinds => ?_⟩
    exact List.le_of_mem_argmax (mem_arrays_iff.2 hbinds) hfound

/-! ## Whether there is a value -/

/-- All names are under the deepest array among them. -/
theorem Expr.Evaluable.under (hevaluable : e.Evaluable env) (hdeepest : env.Deepest e.symbols a) :
    Under env e.symbols a := by
  intro name hmem
  rcases hevaluable.bound name hmem with ⟨x, hbound⟩ | ⟨b, hbound⟩ | ⟨hfree, x, hconstant⟩
  · exact ⟨_, _, resolveName_eq_ok_iff.2 (.scalar hbound), .scalar⟩
  · have hbinds : env.Binds e.symbols b := ⟨name, hmem, hbound⟩
    have hfits := (hevaluable.compatible b a hbinds hdeepest.binds).1 (hdeepest.depth_le b hbinds)
    exact ⟨_, _, resolveName_eq_ok_iff.2 (.array hbound), .array hfits⟩
  · exact ⟨_, _, resolveName_eq_ok_iff.2 (.constant hfree hconstant), .scalar⟩

theorem Expr.Evaluable.exists_under (hevaluable : e.Evaluable env) :
    ∃ t, Under env e.symbols t := by
  rcases exists_deepest env e.symbols with hnone | ⟨a, hdeepest⟩
  · refine ⟨.flat [], fun name hmem => ?_⟩
    rcases hevaluable.bound name hmem with ⟨x, hbound⟩ | ⟨b, hbound⟩ | ⟨hfree, x, hconstant⟩
    · exact ⟨_, _, resolveName_eq_ok_iff.2 (.scalar hbound), .scalar⟩
    · exact absurd ⟨name, hmem, hbound⟩ (hnone b)
    · exact ⟨_, _, resolveName_eq_ok_iff.2 (.constant hfree hconstant), .scalar⟩
  · exact ⟨a, hevaluable.under hdeepest⟩

/-- Names that are under some array are bound, and their arrays are compatible. -/
theorem Under.evaluable (hunder : Under env e.symbols t) (hpure : e.isPure) (hnumeric : e.Numeric) :
    e.Evaluable env := by
  refine ⟨hpure, hnumeric, fun name hmem => ?_, ?_⟩
  · obtain ⟨r, x, hresolved, -⟩ := hunder name hmem
    cases r with
    | inl x =>
      rcases resolveName_eq_ok_iff.1 hresolved with hbound | ⟨hfree, hconstant⟩
      · exact .inl ⟨x, hbound⟩
      · exact .inr (.inr ⟨hfree, x, hconstant⟩)
    | inr a => exact .inr (.inl ⟨a, get?_of_resolveName hresolved⟩)
  · rintro a b ⟨name, hmem, hbound⟩ ⟨name', hmem', hbound'⟩
    exact (hunder.fits hmem (resolveName_eq_ok_iff.2 (.array hbound))).compatible
      (hunder.fits hmem' (resolveName_eq_ok_iff.2 (.array hbound')))

/-- An expression that has what it needs has a value over aligned inputs, and any other fails. -/
theorem eval_outcome (e : Expr) (hconsistent : env.Consistent) :
    (e.Evaluable env ∧ ∃ t inputs x v, Aligned env e.symbols t inputs ∧
        e.evalOver inputs = .ok x ∧ e.stepwise env = .ok v ∧ Spreads t v x ∧
        e.eval env = .ok v) ∨
      ¬ e.Evaluable env ∧ ∃ cause, e.eval env = .error cause := by
  by_cases hevaluable : e.Evaluable env
  · left
    rcases eval_eq e hconsistent with ⟨t, inputs, haligned, heq⟩ | ⟨hnone, -⟩
    · obtain ⟨x, v, hvalue⟩ := haligned.eval_ok hconsistent heq hevaluable.pure hevaluable.numeric
      exact ⟨hevaluable, t, inputs, x, v, haligned, hvalue⟩
    · exact absurd hevaluable.exists_under (not_exists.2 hnone)
  · refine .inr ⟨hevaluable, ?_⟩
    rcases eval_eq e hconsistent with ⟨t, inputs, haligned, heq⟩ | ⟨-, cause, hfails⟩
    · cases hcomputed : e.evalOver inputs with
      | error cause => exact ⟨cause, by rw [heq, hcomputed]; rfl⟩
      | ok x =>
        have hpure := pure_of_evalOver e hcomputed
        have hnumeric := numeric_of_evalOver e hcomputed
        exact absurd (haligned.under.evaluable hpure hnumeric) hevaluable
    · exact ⟨cause, hfails⟩

/-! ## What the value is -/

/-- At a leaf, an aligned name stands for its number there. -/
theorem Aligned.number_eq {k : Nat} (haligned : Aligned env names t inputs) (hmem : name ∈ names)
    (hleaf : (t.leafAt? path).isSome) (hplace : ∀ xs, (t.withLeaves xs).leafAt? path = xs[k]?) :
    env.numberAt? path name = (inputs.get? name).bind (Operand.at? k) := by
  obtain ⟨r, x, hresolved, hspreads, hfound⟩ := haligned.agrees name hmem
  rw [hfound, Option.bind_some]
  cases r with
  | inl x =>
    cases hspreads
    exact numberAt?_number hresolved
  | inr a =>
    cases hspreads with
    | array hfits =>
      rw [numberAt?_array hresolved, ← leafAt?_stretch haligned.consistent hfits hleaf, hplace]
      rfl

/-- The value is the number that the expression comes to, and no name is bound to an array; or it is
an array of the shape of the deepest one, with at each leaf what the expression comes to there. -/
inductive Expr.HasPointwise (env : Environment) (e : Expr) : Value → Prop where
  | scalar {x : Float} : (∀ a, ¬ env.Binds e.symbols a) →
      (∀ path, e.number? (env.numberAt? path) = some x) → HasPointwise env e (.scalar x)
  | array {a b : Jagged} : env.Deepest e.symbols a →
      (∀ c, env.Deepest e.symbols c → b.SameShape c) →
      (∀ path, (b.leafAt? path).isSome → e.number? (env.numberAt? path) = b.leafAt? path) →
      HasPointwise env e (.array b)

/-- Names that are not bound to arrays stand for numbers, along any path. -/
theorem Aligned.scalar_of_not_binds (haligned : Aligned env names t inputs)
    (hnone : ∀ a, ¬ env.Binds names a) (hmem : name ∈ names) :
    ∃ x, inputs.get? name = some (.scalar x) ∧ ∀ path, env.numberAt? path name = some x := by
  obtain ⟨r, x, hresolved, hspreads, hfound⟩ := haligned.agrees name hmem
  cases r with
  | inl x =>
    cases hspreads
    exact ⟨x, hfound, fun path => numberAt?_number hresolved⟩
  | inr a => exact absurd ⟨name, hmem, get?_of_resolveName hresolved⟩ (hnone a)

/-- A name that is bound to an array stands for a column. -/
theorem Aligned.column_of_binds (haligned : Aligned env names t inputs)
    (hbinds : env.Binds names a) : ∃ name ∈ names, ∃ xs, inputs.get? name = some (.column xs) := by
  obtain ⟨name, hmem, hbound⟩ := hbinds
  obtain ⟨r, x, hresolved, hspreads, hfound⟩ := haligned.agrees name hmem
  cases hresolved.symm.trans (resolveName_eq_ok_iff.2 (.array hbound))
  cases hspreads
  exact ⟨name, hmem, _, hfound⟩

theorem Aligned.hasPointwise {z : Operand} (hconsistent : env.Consistent)
    (hevaluable : e.Evaluable env) (haligned : Aligned env e.symbols t inputs)
    (hcomputed : e.evalOver inputs = .ok z) (hvalue : e.stepwise env = .ok v)
    (hspreads : Spreads t v z) : e.HasPointwise env v := by
  have hsymbol {name : String} (hoccurs : name ∈ e.occurrences) : name ∈ e.symbols :=
    List.mem_eraseDups.2 hoccurs
  have hscalar_iff := scalar_iff_of_evalOver e hcomputed
  -- Without arrays among the names the value is a number, and otherwise it has the shape of the
  -- deepest of them.
  cases hspreads with
  | @scalar x =>
    have hnumbers := hscalar_iff.1 ⟨x, rfl⟩
    have hnone (a : Jagged) : ¬ env.Binds e.symbols a := by
      intro hbinds
      obtain ⟨name, hmem, xs, hcolumn⟩ := haligned.column_of_binds hbinds
      obtain ⟨r, hnumber⟩ := hnumbers name (List.mem_eraseDups.1 hmem)
      cases hnumber.symm.trans hcolumn
    refine .scalar hnone fun path => ?_
    calc e.number? (env.numberAt? path)
        = e.number? fun name => (inputs.get? name).bind (Operand.at? 0) := by
          refine number?_congr e fun name hoccurs => ?_
          obtain ⟨r, hnumber, halong⟩ := haligned.scalar_of_not_binds hnone (hsymbol hoccurs)
          rw [hnumber, halong]
          rfl
      _ = some x := number?_of_evalOver e hcomputed
  | @array a hfits =>
    -- The value is over all names too, so the least array above them is no larger than it.
    have hback : t.Fits a :=
      haligned.least a hfits (under_symbols hconsistent hevaluable.numeric hvalue (.self a))
    obtain ⟨c, hdeepest⟩ : ∃ c, env.Deepest e.symbols c := by
      refine (exists_deepest env e.symbols).resolve_left fun hnone => ?_
      obtain ⟨r, heq⟩ := hscalar_iff.2 fun name hoccurs =>
        (haligned.scalar_of_not_binds hnone (hsymbol hoccurs)).imp fun _ h => h.1
      cases heq
    refine .array hdeepest (fun c hdeepest => ?_) fun path hleaf => ?_
    · have hunder := hevaluable.under hdeepest
      obtain ⟨name, hmem, hbound⟩ := hdeepest.binds
      have hinside : c.Fits t := haligned.under.fits hmem (resolveName_eq_ok_iff.2 (.array hbound))
      exact (hfits.trans (haligned.least c hinside hunder)).sameShape (hinside.trans hback)
    · -- `t` and the value have one shape, so one place stands for the path in both.
      have hleaf' : (t.leafAt? path).isSome := (hfits.sameShape hback).isSome_leafAt? ▸ hleaf
      obtain ⟨k, hplace⟩ := exists_place hleaf'
      have hwhole : t.withLeaves (a.stretch t) = a := by
        rw [stretch_eq_leaves hback.depth_le, ← withLeaves_congr (hfits.sameShape hback).lengths,
          withLeaves_leaves]
      calc e.number? (env.numberAt? path)
          = e.number? fun name => (inputs.get? name).bind (Operand.at? k) :=
            number?_congr e fun name hoccurs => haligned.number_eq (hsymbol hoccurs) hleaf' hplace
        _ = (a.stretch t)[k]? := number?_of_evalOver e hcomputed
        _ = (t.withLeaves (a.stretch t)).leafAt? path := (hplace _).symm
        _ = a.leafAt? path := by rw [hwhole]

end

/-! ## Texts -/

theorem evaluateText_eq_ok_iff {text : String} :
    evaluateText text env = .ok v ↔ ∃ e, Expr.parse text = .ok e ∧ e.eval env = .ok v := by
  unfold evaluateText
  rw [bind_eq_ok_iff]
  simp only [mapError_eq_ok_iff]

/-- Evaluating a text succeeds exactly if it parses to a pure expression without text literals whose
names are bound to numbers or arrays or are unbound constants, the arrays being compatible with each
other. The value is a number if no name is bound to an array, and else an array of the shape of the
deepest of them; at each leaf it is what the expression comes to on numbers, with each name standing
for its number or its own leaf at that path, cut to its depth. -/
theorem evaluateText_pointwise (hconsistent : env.Consistent) (text : String) :
    ((∃ v, evaluateText text env = .ok v) ↔
      ∃ e, Expr.parse text = .ok e ∧ e.Evaluable env) ∧
    ∀ v, evaluateText text env = .ok v →
      ∃ e, Expr.parse text = .ok e ∧ e.HasPointwise env v := by
  simp only [evaluateText_eq_ok_iff]
  constructor
  · constructor
    · rintro ⟨v, e, hparsed, hvalue⟩
      rcases eval_outcome e hconsistent with ⟨hevaluable, -⟩ | ⟨-, cause, hfails⟩
      · exact ⟨e, hparsed, hevaluable⟩
      · cases hfails.symm.trans hvalue
    · rintro ⟨e, hparsed, hevaluable⟩
      rcases eval_outcome e hconsistent with ⟨-, t, inputs, x, v, -, -, -, -, hvalue⟩ | ⟨hunfit, -⟩
      · exact ⟨v, e, hparsed, hvalue⟩
      · exact absurd hevaluable hunfit
  · rintro v ⟨e, hparsed, hvalue⟩
    refine ⟨e, hparsed, ?_⟩
    rcases eval_outcome e hconsistent with
      ⟨hevaluable, t, inputs, x, w, haligned, hcomputed, hstepwise, hspreads, hvalue'⟩ |
      ⟨-, cause, hfails⟩
    · cases hvalue'.symm.trans hvalue
      exact haligned.hasPointwise hconsistent hevaluable hcomputed hstepwise hspreads
    · cases hfails.symm.trans hvalue

/-- A number, a flat array, a nested one and a constant. The environment has another array, which
fits none of them, but its name does not occur. -/
theorem evaluateText_pointwise_nested :
    let x : Jagged := .flat [1.0, 2.0]
    let y : Jagged := .nested [2, 1] (.flat [4.0, 5.0, 6.0])
    let env : Environment := .ofList [("x", .array x), ("k", .scalar 3.0), ("y", .array y),
      ("z", .array (.flat []))]
    let e : Expr := .binary .sub (.binary .add (.binary .mul (.column "k") (.column "x"))
      (.column "y")) (.column "pi")
    env.Consistent ∧ Expr.parse "k * x + y - pi" = .ok e ∧
      ∃ b, evaluateText "k * x + y - pi" env = .ok (.array b) ∧ b.SameShape y ∧
        ∀ path, (b.leafAt? path).isSome → e.number? (env.numberAt? path) = b.leafAt? path := by
  intro x y env e
  have hbound_x : env.get? "x" = some (.array x) := rfl
  have hbound_y : env.get? "y" = some (.array y) := rfl
  have hbound_k : env.get? "k" = some (.scalar 3.0) := rfl
  have hfree_pi : env.get? "pi" = none := rfl
  have hsymbols : e.symbols = ["k", "x", "y", "pi"] := rfl
  have hconsistent : env.Consistent := by
    intro name a hbound
    have hentry : (name, Value.array a) ∈ [("x", Value.array x), ("k", .scalar 3.0),
      ("y", .array y), ("z", .array (.flat []))] := (Table.get?_eq_some_iff _ _ _).1 hbound
    simp only [List.mem_cons, Prod.mk.injEq, Value.array.injEq, reduceCtorEq, and_false, false_or,
      List.not_mem_nil, or_false] at hentry
    rcases hentry with ⟨-, rfl⟩ | ⟨-, rfl⟩ | ⟨-, rfl⟩
    · exact trivial
    · exact ⟨rfl, trivial⟩
    · exact trivial
  have hwellFormed : e.WellFormed := by
    have hword {name : String} (hidentifier : isIdentifier name) (hfree : name ∉ reservedWords) :
        (Expr.column name).WellFormed := ⟨.word hidentifier hfree, trivial⟩
    exact ⟨⟨⟨hword (by decide) (by decide), hword (by decide) (by decide)⟩,
      hword (by decide) (by decide)⟩, hword (by decide) (by decide)⟩
  have hparsed : Expr.parse "k * x + y - pi" = .ok e := Expr.parse_render_of_wellFormed hwellFormed
  have hfits {a : Jagged} (hbinds : env.Binds e.symbols a) : a.Fits y := by
    obtain ⟨name, hmem, hbound⟩ := hbinds
    simp only [hsymbols, List.mem_cons, List.not_mem_nil, or_false] at hmem
    rcases hmem with rfl | rfl | rfl | rfl
    · cases hbound_k.symm.trans hbound
    · cases hbound_x.symm.trans hbound
      decide
    · cases hbound_y.symm.trans hbound
      exact .refl y
    · cases hfree_pi.symm.trans hbound
  have hdeepest : env.Deepest e.symbols y :=
    ⟨⟨"y", by decide, hbound_y⟩, fun a hbinds => (hfits hbinds).depth_le⟩
  have hevaluable : e.Evaluable env := by
    have hcolumn {name : String} : (Expr.column name).Numeric := ⟨trivial, trivial⟩
    refine ⟨rfl, ⟨⟨⟨hcolumn, hcolumn⟩, hcolumn⟩, hcolumn⟩, ?_,
      fun a b hbinds hbinds' => (hfits hbinds).compatible (hfits hbinds')⟩
    rw [hsymbols]
    simp only [List.forall_mem_cons]
    exact ⟨.inl ⟨_, hbound_k⟩, .inr (.inl ⟨_, hbound_x⟩), .inr (.inl ⟨_, hbound_y⟩),
      .inr (.inr ⟨hfree_pi, _, rfl⟩), List.forall_mem_nil _⟩
  obtain ⟨hsucceeds, hpointwise⟩ := evaluateText_pointwise hconsistent "k * x + y - pi"
  obtain ⟨v, hvalue⟩ := hsucceeds.2 ⟨e, hparsed, hevaluable⟩
  obtain ⟨e', hparsed', hhas⟩ := hpointwise v hvalue
  cases hparsed.symm.trans hparsed'
  cases hhas with
  | scalar hnone => exact absurd hdeepest.binds (hnone y)
  | array _ hshape hleaves => exact ⟨hconsistent, hparsed, _, hvalue, hshape y hdeepest, hleaves⟩

end ColumnFlow
