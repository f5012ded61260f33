import ColumnFlow.Proofs.Arrays.Pairwise
import ColumnFlow.Proofs.Interpretation

/-!
# One operator at a time

A pure expression can be evaluated in one pass, with all its arrays aligned to the deepest of
them, or one operator at a time, with the builtin function of each operator aligning just its
own operands. Both succeed on the same environments, with the same value.
-/

namespace ColumnFlow

open Jagged

variable {env : Environment} {v w : Value} {t : Jagged}

/-! ## The functions of the operators -/

section

variable {r : Registry} {name k : String} {f : Function} {apply : List Value → Answer Value}
  {functions : List (String × (List Value → Answer Value))}

/-- Installing a function binds its name if it is not taken, and nothing else. -/
theorem get?_install :
    (r.install name apply).get? k =
      if k = name ∧ r.get? name = none then some ⟨name, r.issued, apply⟩ else r.get? k := by
  have htaken : r.contains name = true ↔ r.get? name ≠ none := by
    rw [Registry.contains, Table.contains_iff, ne_eq, Registry.get?, Table.get?_eq_none_iff,
      not_not]
  rw [Registry.install, Registry.register]
  by_cases hfree : r.get? name = none
  · rw [if_neg fun h => htaken.1 h hfree]
    simp only [hfree, and_true]
    exact Table.get?_insert _ _ _ _
  · rw [if_pos (htaken.2 hfree)]
    simp [hfree]

/-- A name that is bound stays bound to the first function that took it. -/
theorem get?_installs_of_get? (hbound : r.get? k = some f) :
    (functions.foldl (fun r f => r.install f.1 f.2) r).get? k = some f := by
  induction functions generalizing r with
  | nil => exact hbound
  | cons g gs ih =>
    refine ih ?_
    rw [get?_install, if_neg, hbound]
    rintro ⟨rfl, hfree⟩
    cases hfree.symm.trans hbound

/-- Of functions with different names, each is bound to its name. -/
theorem get?_installs (hnodup : (functions.map Prod.fst).Nodup)
    (hfree : ∀ f ∈ functions, r.get? f.1 = none) (hmem : (name, apply) ∈ functions) :
    ∃ stamp, (functions.foldl (fun r f => r.install f.1 f.2) r).get? name =
      some ⟨name, stamp, apply⟩ := by
  induction functions generalizing r with
  | nil => cases hmem
  | cons g gs ih =>
    obtain ⟨hother, hnodup⟩ := List.nodup_cons.1 hnodup
    obtain ⟨hfirst, hfree⟩ := List.forall_mem_cons.1 hfree
    rcases List.mem_cons.1 hmem with rfl | hmem
    · have hbound : (r.install name apply).get? name = some ⟨name, r.issued, apply⟩ :=
        get?_install.trans (if_pos ⟨rfl, hfirst⟩)
      rw [List.foldl_cons]
      exact ⟨r.issued, get?_installs_of_get? hbound⟩
    · refine ih hnodup (fun f hinside => ?_) hmem
      rw [get?_install, if_neg, hfree f hinside]
      rintro ⟨hsame, -⟩
      exact hother (hsame ▸ List.mem_map_of_mem hinside)

/-- What is bound after installing functions is one of them, unless it was bound before. -/
theorem mem_of_get?_installs
    (hbound : (functions.foldl (fun r f => r.install f.1 f.2) r).get? k = some f) :
    r.get? k = some f ∨ (k, f.apply) ∈ functions := by
  induction functions generalizing r with
  | nil => exact .inl hbound
  | cons g gs ih =>
    rcases ih hbound with hfirst | hlater
    · rw [get?_install] at hfirst
      split at hfirst
      · next hown =>
        obtain ⟨rfl, -⟩ := hown
        cases hfirst
        exact .inr List.mem_cons_self
      · exact .inl hfirst
    · exact .inr (List.mem_cons_of_mem _ hlater)

theorem mem_of_get?_builtins (hbound : Registry.builtins.get? k = some f) :
    (k, f.apply) ∈ Builtin.all :=
  (mem_of_get?_installs hbound).resolve_left nofun

/-- Every builtin function is found under its name. -/
theorem find_builtin (hmem : (name, apply) ∈ Builtin.all) :
    ∃ stamp, Registry.builtins.find name = .ok ⟨name, stamp, apply⟩ := by
  obtain ⟨stamp, hbound⟩ := get?_installs (r := .empty) (by decide) (fun _ _ => rfl) hmem
  exact ⟨stamp, find_eq_ok_iff.2 hbound⟩

theorem mem_builtins_binary (op : BinaryOp) :
    (op.functionName, Builtin.binary op) ∈ Builtin.all := by
  have hmem : op ∈ BinaryOp.all := by cases op <;> decide
  exact List.mem_append_left _ (List.mem_append_left _ (List.mem_map.2 ⟨op, hmem, rfl⟩))

theorem mem_builtins_unary (op : UnaryOp) :
    (op.functionName, Builtin.elementwise op.functionName op.kernel) ∈ Builtin.all := by
  have hmem : op ∈ UnaryOp.all := by cases op <;> decide
  exact List.mem_append_left _ (List.mem_append_right _ (List.mem_map.2 ⟨op, hmem, rfl⟩))

end

/-! ## Evaluation one operator at a time -/

/-- The value of a pure expression, one operator at a time: literals stand for themselves, each
column is evaluated alone, and each operator is the builtin function of its name. -/
def Expr.stepwise (env : Environment) : Expr → Answer Value
  | .literal value => .ok value.value
  | .symbol name none => (Expr.column name).evaluate env
  | .binary op left right => do
    let x ← left.stepwise env
    let y ← right.stepwise env
    (← Registry.builtins.find op.functionName).apply [x, y]
  | .unary op operand => do
    let x ← operand.stepwise env
    (← Registry.builtins.find op.functionName).apply [x]
  | e => .error (.error (.eval (.needsTask e)))

theorem stepwise_binary_eq_ok_iff {op : BinaryOp} {left right : Expr} :
    (Expr.binary op left right).stepwise env = .ok v ↔
      ∃ x y, left.stepwise env = .ok x ∧ right.stepwise env = .ok y ∧
        x.zip op.kernel y = .ok v := by
  obtain ⟨stamp, hfound⟩ := find_builtin (mem_builtins_binary op)
  have happlied (x y : Value) : Builtin.binary op [x, y] = x.zip op.kernel y := rfl
  simp only [Expr.stepwise, hfound, ok_bind, happlied, bind_eq_ok_iff]
  constructor
  · rintro ⟨x, hfirst, y, hsecond, hcombined⟩
    exact ⟨x, y, hfirst, hsecond, hcombined⟩
  · rintro ⟨x, y, hfirst, hsecond, hcombined⟩
    exact ⟨x, hfirst, y, hsecond, hcombined⟩

theorem stepwise_unary_eq_ok_iff {op : UnaryOp} {operand : Expr} :
    (Expr.unary op operand).stepwise env = .ok v ↔
      ∃ x, operand.stepwise env = .ok x ∧ x.mapNumbers op.kernel = .ok v := by
  obtain ⟨stamp, hfound⟩ := find_builtin (mem_builtins_unary op)
  have happlied (x : Value) :
      Builtin.elementwise op.functionName op.kernel [x] = x.mapNumbers op.kernel := rfl
  simp only [Expr.stepwise, hfound, ok_bind, happlied, bind_eq_ok_iff]

/-! ## Names -/

/-- Every array that the environment binds is consistent. -/
def Environment.Consistent (env : Environment) : Prop :=
  ∀ name a, env.get? name = some (.array a) → a.Consistent

/-- What a name stands for, as a value. -/
def boundValue : Float ⊕ Jagged → Value := Sum.elim .scalar .array

/-- What a name resolves to is consistent if the environment is. -/
theorem consistent_of_resolveName (hconsistent : env.Consistent) {name : String} {a : Jagged}
    (hresolved : resolveName env name = .ok (.inr a)) : a.Consistent := by
  unfold resolveName at hresolved
  split at hresolved
  · cases hresolved
  · next hbound =>
    cases hresolved
    exact hconsistent name _ hbound
  · cases hresolved
  · split at hresolved <;> cases hresolved

/-- All the names stand for numbers, or for arrays that fit the given one. -/
def Under (env : Environment) (names : List String) (t : Jagged) : Prop :=
  ∀ name ∈ names, ∃ r x, resolveName env name = .ok r ∧ Spreads t (boundValue r) x

/-- The names stand for these inputs, aligned to the least array that they are under. -/
structure Aligned (env : Environment) (names : List String) (t : Jagged) (inputs : Inputs) :
    Prop where
  consistent : t.Consistent
  agrees : ∀ name ∈ names, ∃ r x, resolveName env name = .ok r ∧ Spreads t (boundValue r) x ∧
    inputs.get? name = some x
  least : ∀ a, a.Fits t → Under env names a → t.Fits a

theorem Under.fits {names : List String} {name : String} {a : Jagged} (hunder : Under env names t)
    (hmem : name ∈ names) (hresolved : resolveName env name = .ok (.inr a)) : a.Fits t := by
  obtain ⟨r, x, hresolved', hspreads⟩ := hunder name hmem
  cases hresolved.symm.trans hresolved'
  cases hspreads with
  | array hfits => exact hfits

/-- Aligned arrays fit the one that they are aligned to. -/
theorem Aligned.under {names : List String} {inputs : Inputs} (h : Aligned env names t inputs) :
    Under env names t := by
  intro name hmem
  obtain ⟨r, x, hresolved, hspreads, -⟩ := h.agrees name hmem
  exact ⟨r, x, hresolved, hspreads⟩

/-! ## Aligning -/

section

variable {names : List String} {resolved : List (String × (Float ⊕ Jagged))}

/-- The pairs of names and what they stand for. -/
theorem mem_resolved
    (hok : (names.mapM fun name => (resolveName env name).map fun x => (name, x)) = .ok resolved)
    {name : String} {r : Float ⊕ Jagged} :
    (name, r) ∈ resolved ↔ name ∈ names ∧ resolveName env name = .ok r := by
  rw [mem_of_mapM_eq_ok hok]
  simp only [map_eq_ok_iff, Prod.mk.injEq]
  constructor
  · rintro ⟨_, hmem, r, hfound, rfl, rfl⟩
    exact ⟨hmem, hfound⟩
  · rintro ⟨hmem, hfound⟩
    exact ⟨name, hmem, r, hfound, rfl, rfl⟩

theorem mem_scalarsOf {name : String} {x : Float} :
    (name, x) ∈ scalarsOf resolved ↔ (name, .inl x) ∈ resolved := by
  simp [scalarsOf]

theorem mem_arraysOf {name : String} {a : Jagged} :
    (name, a) ∈ arraysOf resolved ↔ (name, .inr a) ∈ resolved := by
  simp [arraysOf]

/-- In a list that pairs each name with one thing, the pairs are found by their names. -/
theorem lookup_eq_some_iff_mem {α : Type} {pairs : List (String × α)} {name : String} {x : α}
    (hsingle : ∀ y, (name, y) ∈ pairs → y = x) :
    pairs.lookup name = some x ↔ (name, x) ∈ pairs := by
  constructor
  · intro hfound
    obtain ⟨before, after, rfl, -⟩ := List.lookup_eq_some_iff.1 hfound
    simp
  · intro hmem
    cases hfound : pairs.lookup name with
    | none => exact absurd rfl (bne_iff_ne.1 (List.lookup_eq_none_iff.1 hfound _ hmem))
    | some y =>
      obtain ⟨before, after, rfl, -⟩ := List.lookup_eq_some_iff.1 hfound
      rw [hsingle y (by simp)]

/-- The resolved names are aligned to the least array that they are under. -/
theorem aligned_of_fits
    (hok : (names.mapM fun name => (resolveName env name).map fun x => (name, x)) = .ok resolved)
    (hconsistent : t.Consistent) (hfits : ∀ i ∈ arraysOf resolved, i.2.Fits t)
    (hleast : ∀ a, a.Fits t → Under env names a → t.Fits a) :
    Aligned env names t
      ⟨scalarsOf resolved, (arraysOf resolved).map fun i => (i.1, i.2.stretch t)⟩ := by
  refine ⟨hconsistent, fun name hmem => ?_, hleast⟩
  obtain ⟨p, hnamed⟩ := exists_of_mapM_eq_ok hok name hmem
  obtain ⟨r, hfound, -⟩ := map_eq_ok_iff.1 hnamed
  have hinside := (mem_resolved hok).2 ⟨hmem, hfound⟩
  have hsingle {r' : Float ⊕ Jagged} (hmem : (name, r') ∈ resolved) : r' = r :=
    (Except.ok.inj (hfound.symm.trans ((mem_resolved hok).1 hmem).2)).symm
  rw [Inputs.get?]
  cases r with
  | inl x =>
    have hnumber : (scalarsOf resolved).lookup name = some x := by
      rw [lookup_eq_some_iff_mem]
      · exact mem_scalarsOf.2 hinside
      · exact fun y hmem => Sum.inl.inj (hsingle (mem_scalarsOf.1 hmem))
    rw [hnumber]
    exact ⟨_, _, hfound, .scalar, rfl⟩
  | inr a =>
    have hnoNumber : (scalarsOf resolved).lookup name = none := by
      rw [List.lookup_eq_none_iff]
      rintro ⟨name', x⟩ hmem
      rw [bne_iff_ne]
      rintro rfl
      cases hsingle (mem_scalarsOf.1 hmem)
    have harray : ((arraysOf resolved).map fun i => (i.1, i.2.stretch t)).lookup name =
        some (a.stretch t) := by
      rw [lookup_eq_some_iff_mem]
      · exact List.mem_map.2 ⟨_, mem_arraysOf.2 hinside, rfl⟩
      · intro xs hmem
        obtain ⟨⟨name', b⟩, hinside', hsame⟩ := List.mem_map.1 hmem
        cases hsame
        cases hsingle (mem_arraysOf.1 hinside')
        rfl
    rw [hnoNumber, harray]
    exact ⟨_, _, hfound, .array (hfits _ (mem_arraysOf.2 hinside)), rfl⟩

end

/-- The value over the array that everything is aligned to. -/
def Operand.shaped (t : Jagged) : Operand → Except EvalError Value
  | .scalar x => .ok (.scalar x)
  | .column xs => do
    let a ← (Leveled.rebuild ⟨xs, t.lengths.reverse⟩).mapError BuildError.asEvalError
    return .array a

/-- An expression is evaluated over the aligned inputs, or its names are under no array and it
has an error. -/
theorem eval_eq (e : Expr) (hconsistent : env.Consistent) :
    (∃ t inputs, Aligned env e.symbols t inputs ∧
        e.eval env = e.evalOver inputs >>= Operand.shaped t) ∨
      (∀ t, ¬ Under env e.symbols t) ∧ ∃ cause, e.eval env = .error cause := by
  -- A name that does not resolve is fatal on both sides; with all of them resolved, the deepest
  -- array is what the others have to fit.
  cases hok : e.symbols.mapM fun name => (resolveName env name).map fun x => (name, x) with
  | error cause =>
    refine .inr ⟨fun t hunder => ?_, cause, by rw [Expr.eval, hok]; rfl⟩
    obtain ⟨resolved, hok'⟩ := exists_mapM_eq_ok
      (f := fun name => (resolveName env name).map fun x => (name, x)) fun name hmem => by
        obtain ⟨r, x, hresolved, -⟩ := hunder name hmem
        exact ⟨_, map_eq_ok_iff.2 ⟨r, hresolved, rfl⟩⟩
    cases hok.symm.trans hok'
  | ok resolved =>
    have hshaped {t : Jagged} (target : Option String)
        (haligned : broadcast (arraysOf resolved) = .ok ⟨target, t.lengths.reverse,
          (arraysOf resolved).map fun i => (i.1, i.2.stretch t)⟩) :
        e.eval env = e.evalOver ⟨scalarsOf resolved,
          (arraysOf resolved).map fun i => (i.1, i.2.stretch t)⟩ >>= Operand.shaped t := by
      rw [Expr.eval, hok, ok_bind, haligned]
      refine congrArg (e.evalOver _ >>= ·) (funext fun x => ?_)
      cases x <;> rfl
    by_cases hempty : arraysOf resolved = []
    · refine .inl ⟨.flat [], _, aligned_of_fits hok trivial (by simp [hempty]) ?_,
        hshaped none ?_⟩
      · exact fun a hfits _ => (Fits.refl _).of_fits hfits (Nat.zero_le _)
      · rw [hempty]
        rfl
    · obtain ⟨target, hfirst, ⟨hfits, haligned⟩ | ⟨before, i, after, cause, hsplit, -, hunfit, -,
        herror⟩⟩ :=
        broadcast_eq hempty
      · obtain ⟨hmem, hfound⟩ := (mem_resolved hok).1 (mem_arraysOf.1 hfirst.mem)
        refine .inl ⟨target.2, _, aligned_of_fits hok ?_ hfits ?_, hshaped _ haligned⟩
        · exact consistent_of_resolveName hconsistent hfound
        · exact fun a _ hunder => hunder.fits hmem hfound
      · refine .inr ⟨fun t hunder => hunfit ?_, .shape cause, ?_⟩
        · have hfits {j : String × Jagged} (hinside : j ∈ arraysOf resolved) : j.2.Fits t := by
            obtain ⟨hmem, hfound⟩ := (mem_resolved hok).1 (mem_arraysOf.1 hinside)
            exact hunder.fits hmem hfound
          have hinside : i ∈ arraysOf resolved := by simp [hsplit]
          exact (hfits hinside).of_fits (hfits hfirst.mem) (hfirst.depth_le i hinside)
        · rw [Expr.eval, hok, ok_bind, herror]
          rfl

/-- Over the least array that the names are under, a value that they are under is itself. -/
theorem Aligned.shaped {names : List String} {inputs : Inputs} {x : Operand}
    (h : Aligned env names t inputs) (hspreads : Spreads t v x)
    (hunder : ∀ a, v = .array a → Under env names a) : x.shaped t = .ok v := by
  cases hspreads with
  | scalar => rfl
  | @array a hfits =>
    have hback := h.least a hfits (hunder a rfl)
    have hsame : a.lengths = t.lengths := hfits.lengths_eq hback.depth_le
    have hwhole : t.withLeaves (a.stretch t) = a := by
      rw [stretch_eq_leaves hback.depth_le, ← withLeaves_congr hsame, withLeaves_leaves]
    rw [Operand.shaped, rebuild_withLeaves h.consistent (length_stretch h.consistent hfits), hwhole]
    rfl

/-! ## Columns -/

theorem evaluate_eq_ok_iff {e : Expr} : e.evaluate env = .ok v ↔ e.eval env = .ok v :=
  mapError_eq_ok_iff

/-- What a name is bound to holds numbers only. -/
theorem numbers_boundValue (hconsistent : env.Consistent) {name : String} {r : Float ⊕ Jagged}
    (hresolved : resolveName env name = .ok r) : (boundValue r).Numbers := by
  cases r with
  | inl x => exact .scalar
  | inr a => exact .array (consistent_of_resolveName hconsistent hresolved)

/-- A column is what its name stands for. -/
theorem eval_column (hconsistent : env.Consistent) {name : String} :
    (Expr.column name).eval env = .ok v ↔ ∃ r, resolveName env name = .ok r ∧ v = boundValue r := by
  have hsymbols : (Expr.column name).symbols = [name] := rfl
  have hunder {t : Jagged} {r : Float ⊕ Jagged} {x : Operand} (hresolved :
    resolveName env name = .ok r)
      (hspreads : Spreads t (boundValue r) x) : Under env (Expr.column name).symbols t := by
    rw [hsymbols]
    exact List.forall_mem_singleton.2 ⟨r, x, hresolved, hspreads⟩
  rcases eval_eq (Expr.column name) hconsistent with ⟨t, inputs, haligned, heq⟩ |
    ⟨hnone, cause, herror⟩
  · obtain ⟨r, x, hresolved, hspreads, hfound⟩ := haligned.agrees name (by simp [hsymbols])
    have hvalue : (Expr.column name).eval env = .ok (boundValue r) := by
      rw [heq, Expr.column, Expr.evalOver, hfound, ok_bind]
      exact haligned.shaped hspreads fun a hbound => hunder hresolved (hbound ▸ Spreads.self a)
    rw [hvalue]
    constructor
    · intro hsame
      exact ⟨r, hresolved, (Except.ok.inj hsame).symm⟩
    · rintro ⟨r', hresolved', rfl⟩
      cases hresolved.symm.trans hresolved'
      rfl
  · refine iff_of_false (fun h => by cases herror.symm.trans h) ?_
    rintro ⟨r, hresolved, -⟩
    obtain ⟨t, x, hspreads⟩ := (numbers_boundValue hconsistent hresolved).exists_spreads
    exact hnone t (hunder hresolved hspreads)

/-! ## Agreement -/

/-- One operator at a time, a numeric expression gives numbers. -/
theorem numbers_of_stepwise (hconsistent : env.Consistent) : (e : Expr) → e.Numeric → {v : Value} →
    e.stepwise env = .ok v → v.Numbers
  | .literal (.number _), _, _, h => by cases h; exact .scalar
  | .literal (.bool _), _, _, h => by cases h; exact .scalar
  | .symbol name none, _, _, h => by
    obtain ⟨r, hresolved, rfl⟩ := (eval_column hconsistent).1 (evaluate_eq_ok_iff.1 h)
    exact numbers_boundValue hconsistent hresolved
  | .symbol _ (some _), _, _, h => by cases h
  | .call .., _, _, h => by cases h
  | .binary op left right, hnumeric, _, h => by
    obtain ⟨x, y, hfirst, hsecond, hcombined⟩ := stepwise_binary_eq_ok_iff.1 h
    exact (numbers_of_stepwise hconsistent left hnumeric.1 hfirst).zip
      (numbers_of_stepwise hconsistent right hnumeric.2 hsecond) hcombined
  | .unary op operand, hnumeric, _, h => by
    obtain ⟨x, hfirst, hmapped⟩ := stepwise_unary_eq_ok_iff.1 h
    exact (numbers_of_stepwise hconsistent operand hnumeric hfirst).mapNumbers hmapped

/-- All names of an expression are under the array that its value fits. -/
theorem under_of_stepwise (hconsistent : env.Consistent) : (e : Expr) → e.Numeric → {v : Value} →
    {x : Operand} → e.stepwise env = .ok v → Spreads t v x → Under env e.occurrences t
  | .literal _, _, _, _, _, _ => List.forall_mem_nil _
  | .symbol name none, _, _, x, h, hspreads => by
    obtain ⟨r, hresolved, rfl⟩ := (eval_column hconsistent).1 (evaluate_eq_ok_iff.1 h)
    exact List.forall_mem_cons.2 ⟨⟨r, x, hresolved, hspreads⟩, List.forall_mem_nil _⟩
  | .symbol _ (some _), _, _, _, h, _ => by cases h
  | .call .., _, _, _, h, _ => by cases h
  | .binary op left right, hnumeric, _, _, h, hspreads => by
    obtain ⟨v, w, hfirst, hsecond, hcombined⟩ := stepwise_binary_eq_ok_iff.1 h
    obtain ⟨x, y, hoverLeft, hoverRight, -⟩ :=
      (zip_spreads op.kernel (numbers_of_stepwise hconsistent left hnumeric.1 hfirst)
        (numbers_of_stepwise hconsistent right hnumeric.2 hsecond)).1 ⟨_, hcombined, hspreads⟩
    exact List.forall_mem_append.2 ⟨under_of_stepwise hconsistent left hnumeric.1 hfirst hoverLeft,
      under_of_stepwise hconsistent right hnumeric.2 hsecond hoverRight⟩
  | .unary op operand, hnumeric, _, _, h, hspreads => by
    obtain ⟨v, hfirst, hmapped⟩ := stepwise_unary_eq_ok_iff.1 h
    obtain ⟨x, hleaves, -⟩ := (mapNumbers_spreads op.kernel).1 ⟨_, hmapped, hspreads⟩
    exact under_of_stepwise hconsistent operand hnumeric hfirst hleaves

/-- Over aligned inputs, an expression has a value both ways. The operand of the one pass is
the value of the other, stretched. -/
theorem evalOver_spreads {names : List String} {inputs : Inputs} (hconsistent : env.Consistent)
    (haligned : Aligned env names t inputs) : (e : Expr) → e.isPure → e.Numeric →
    (∀ name ∈ e.occurrences, name ∈ names) →
    ∃ x v, e.evalOver inputs = .ok x ∧ e.stepwise env = .ok v ∧ Spreads t v x
  | .literal (.number _), _, _, _ => ⟨_, _, rfl, rfl, .scalar⟩
  | .literal (.bool _), _, _, _ => ⟨_, _, rfl, rfl, .scalar⟩
  | .symbol name none, _, _, hinside => by
    obtain ⟨r, x, hresolved, hspreads, hfound⟩ :=
      haligned.agrees name (hinside name (by simp [Expr.occurrences]))
    refine ⟨x, boundValue r, by rw [Expr.evalOver, hfound], ?_, hspreads⟩
    exact evaluate_eq_ok_iff.2 ((eval_column hconsistent).2 ⟨r, hresolved, rfl⟩)
  | .symbol _ (some _), hpure, _, _ => by cases hpure
  | .call .., hpure, _, _ => by cases hpure
  | .binary op left' right', hpure, hnumeric, hinside => by
    obtain ⟨hpureLeft, hpureRight⟩ := Bool.and_eq_true_iff.1 hpure
    obtain ⟨hinsideLeft, hinsideRight⟩ := List.forall_mem_append.1 hinside
    obtain ⟨x, v, hoverLeft, hfirst, hleft⟩ :=
      evalOver_spreads hconsistent haligned left' hpureLeft hnumeric.1 hinsideLeft
    obtain ⟨y, w, hoverRight, hsecond, hright⟩ :=
      evalOver_spreads hconsistent haligned right' hpureRight hnumeric.2 hinsideRight
    -- The operator aligns its two operands by itself; stretched further, they are those of the one
    -- pass.
    obtain ⟨u, hcombined, hspreads⟩ :=
      (zip_spreads op.kernel (numbers_of_stepwise hconsistent left' hnumeric.1 hfirst)
        (numbers_of_stepwise hconsistent right' hnumeric.2 hsecond)).2 ⟨x, y, hleft, hright, rfl⟩
    refine ⟨_, u, ?_, stepwise_binary_eq_ok_iff.2 ⟨v, w, hfirst, hsecond, hcombined⟩, hspreads⟩
    rw [Expr.evalOver, hoverLeft, ok_bind, hoverRight]
    rfl
  | .unary op operand, hpure, hnumeric, hinside => by
    obtain ⟨x, v, hcomputed, hfirst, hspreads⟩ :=
      evalOver_spreads hconsistent haligned operand hpure hnumeric hinside
    obtain ⟨u, hmapped, hspreads⟩ := (mapNumbers_spreads op.kernel).2 ⟨x, hspreads, rfl⟩
    refine ⟨_, u, ?_, stepwise_unary_eq_ok_iff.2 ⟨v, hfirst, hmapped⟩, hspreads⟩
    rw [Expr.evalOver, hcomputed]
    rfl

theorem under_symbols {e : Expr} {x : Operand} (hconsistent : env.Consistent) (hnumeric : e.Numeric)
    (hvalue : e.stepwise env = .ok v) (hspreads : Spreads t v x) : Under env e.symbols t :=
  fun name hmem => under_of_stepwise hconsistent e hnumeric hvalue hspreads name
    (List.mem_eraseDups.1 hmem)

/-- Over the inputs that its names are aligned to, a pure expression has a value. -/
theorem Aligned.eval_ok {e : Expr} {inputs : Inputs} (hconsistent : env.Consistent)
    (haligned : Aligned env e.symbols t inputs)
    (heq : e.eval env = e.evalOver inputs >>= Operand.shaped t) (hpure : e.isPure)
    (hnumeric : e.Numeric) : ∃ x v, e.evalOver inputs = .ok x ∧ e.stepwise env = .ok v ∧
      Spreads t v x ∧ e.eval env = .ok v := by
  obtain ⟨x, v, hcomputed, hvalue, hspreads⟩ := evalOver_spreads hconsistent haligned e hpure
    hnumeric fun name hmem => List.mem_eraseDups.2 hmem
  refine ⟨x, v, hcomputed, hvalue, hspreads, ?_⟩
  rw [heq, hcomputed, ok_bind]
  exact haligned.shaped hspreads fun a hbound => under_symbols hconsistent hnumeric
    (hbound ▸ hvalue) (.self a)

/-- Evaluating a pure expression in one pass is evaluating it one operator at a time. -/
theorem evaluate_iff_stepwise {e : Expr} (hpure : e.isPure) (hnumeric : e.Numeric)
    (hconsistent : env.Consistent) : e.evaluate env = .ok v ↔ e.stepwise env = .ok v := by
  rw [evaluate_eq_ok_iff]
  rcases eval_eq e hconsistent with ⟨t, inputs, haligned, heq⟩ | ⟨hnone, cause, herror⟩
  · obtain ⟨x, u, -, hvalue, -, hsame⟩ := haligned.eval_ok hconsistent heq hpure hnumeric
    rw [hsame, hvalue, Except.ok.injEq, Except.ok.injEq]
  · refine iff_of_false (fun h => by cases herror.symm.trans h) fun h => ?_
    obtain ⟨t, x, hspreads⟩ := (numbers_of_stepwise hconsistent e hnumeric h).exists_spreads
    exact hnone t (under_symbols hconsistent hnumeric h hspreads)

/-- A flat array, subtracted from a nested one after its numbers have been doubled. -/
theorem evaluate_iff_stepwise_nested :
    let e : Expr := .binary .sub (.column "y")
      (.binary .mul (.literal (.number 2.0)) (.column "x"))
    let env : Environment := (Table.empty.insert "x" (.array (.flat [1.0, 2.0]))).insert "y"
      (.array (.nested [2, 1] (.flat [3.0, 4.0, 5.0])))
    let v := Value.array (.nested [2, 1]
      (.flat [3.0 - 2.0 * 1.0, 4.0 - 2.0 * 1.0, 5.0 - 2.0 * 2.0]))
    e.isPure ∧ e.Numeric ∧ env.Consistent ∧ e.evaluate env = .ok v ∧ e.stepwise env = .ok v := by
  intro e env v
  have hnumeric : e.Numeric := ⟨⟨trivial, trivial⟩, trivial, trivial, trivial⟩
  have hconsistent : env.Consistent := by
    intro name a hbound
    simp only [env, Table.get?_insert, Table.get?_empty] at hbound
    split at hbound
    · cases hbound
      exact ⟨rfl, trivial⟩
    · split at hbound
      · cases hbound
        trivial
      · cases hbound
  have hvalue : e.evaluate env = .ok v := by rfl
  exact ⟨rfl, hnumeric, hconsistent, hvalue, (evaluate_iff_stepwise rfl hnumeric hconsistent).1
    hvalue⟩

end ColumnFlow
