import ColumnFlow.Compile
import ColumnFlow.Proofs.Evaluation

/-!
# What expressions mean

`Expr.interpret` gives an expression its value without any tasks: literals stand for
themselves, pure subexpressions are evaluated in one pass, and everything else applies a
registered function to the values of its parts. Definitions are evaluated one after the other,
each in the environment that those before it leave.
-/

namespace ColumnFlow

/-! ## Interpretation -/

/-- The function registered under a name. -/
def Registry.find (registry : Registry) (name : String) : Answer Function :=
  match registry.get? name with
  | some f => .ok f
  | none => .refuse (.reported (CompileError.unknownFunction name).message)

/-- The value of a pure expression in an environment. -/
def Expr.evaluate (env : Environment) (e : Expr) : Answer Value :=
  (e.eval env).mapError fun cause => .error (.eval cause)

section

variable (registry : Registry) (env : Environment)

mutual

/-- The value of an expression. -/
def Expr.interpret : Expr → Answer Value
  | .literal value => .ok value.value
  | .symbol name none => (Expr.column name).evaluate env
  | .symbol name (some s) => do
    let source ← (Expr.column name).evaluate env
    let extra ← s.interpret
    (← registry.find "slice").apply [source, extra]
  | .call name arguments subscript => do
    let args ← Expr.interpretAll arguments
    let extra ← Subscript.interpret? subscript
    (← registry.find name).apply (args ++ extra)
  | .binary op left right =>
    if left.isPure && right.isPure then (Expr.binary op left right).evaluate env
    else do
      let x ← left.interpret
      let y ← right.interpret
      (← registry.find op.functionName).apply [x, y]
  | .unary op operand =>
    if operand.isPure then (Expr.unary op operand).evaluate env
    else do
      let x ← operand.interpret
      (← registry.find op.functionName).apply [x]

def Expr.interpretAll : List Expr → Answer (List Value)
  | [] => return []
  | e :: es => do
    let v ← e.interpret
    let vs ← Expr.interpretAll es
    return v :: vs

/-- The value of a part of a slice; a part that is left out has one too. -/
def Expr.interpret? : Option Expr → Answer Value
  | none => .ok .nothing
  | some e => e.interpret

/-- The value of a subscript: that of the position, or a triple. -/
def Subscript.interpret : Subscript → Answer Value
  | .index position => position.interpret
  | .slice lower upper step => do
    let lower ← Expr.interpret? lower
    let upper ← Expr.interpret? upper
    let step ← Expr.interpret? step
    return .tuple [lower, upper, step]

/-- The further argument that a subscript is, if there is one. -/
def Subscript.interpret? : Option Subscript → Answer (List Value)
  | none => return []
  | some s => do return [← s.interpret]

end

/-- The value of the expression that a text spells. -/
def interpretText (text : String) : Answer Value := do
  let e ← (Expr.parse text).mapError fun cause => .error (.eval (.malformed cause))
  e.interpret registry env

end

/-- The values of definitions, each evaluated after those before it have been bound, with the
environment they leave. -/
def interpretInTurn (registry : Registry) (env : Environment) :
    List (String × String) → Answer (List Value × Environment)
  | [] => .ok ([], env)
  | (target, text) :: rest => do
    let v ← interpretText registry env text
    let (vs, env) ← interpretInTurn registry (env.insert target v) rest
    return (v :: vs, env)

/-! ## Parts -/

/-- A part of an expression that has a value of its own. -/
inductive Part where
  | expr (e : Expr)
  | subscript (s : Subscript)
  | bound (b : Option Expr)

namespace Part

/-- The value of a part. -/
def interpret (registry : Registry) (env : Environment) : Part → Answer Value
  | .expr e => e.interpret registry env
  | .subscript s => s.interpret registry env
  | .bound b => Expr.interpret? registry env b

def interpretAll (registry : Registry) (env : Environment) : List Part → Answer (List Value)
  | [] => return []
  | p :: ps => do
    let v ← p.interpret registry env
    let vs ← interpretAll registry env ps
    return v :: vs

/-- The names and the literals of a part are such as can be written in a text. -/
def Written : Part → Prop
  | .expr e => e.Written
  | .subscript s => s.All ColumnName Literal.Written
  | .bound b => Expr.All? ColumnName Literal.Written b

end Part

/-- The function that an expression calls, and the parts it is called on. -/
def Expr.operation? : Expr → Option (String × List Part)
  | .symbol name (some s) => some ("slice", [.expr (.column name), .subscript s])
  | .call name arguments subscript =>
    some (name, arguments.map .expr ++ (subscript.map .subscript).toList)
  | .binary op left right =>
    if left.isPure && right.isPure then none
    else some (op.functionName, [.expr left, .expr right])
  | .unary op operand => if operand.isPure then none else some (op.functionName, [.expr operand])
  | _ => none

variable {registry : Registry} {env : Environment} {v : Value} {vs : List Value}

theorem find_eq_ok_iff {name : String} {f : Function} :
    registry.find name = .ok f ↔ registry.get? name = some f := by
  unfold Registry.find
  cases registry.get? name with
  | none => simp [Answer.refuse]
  | some f' => simp

theorem all_of_mem {P : String → Prop} {Q : Literal → Prop} {e : Expr} {es : List Expr}
    (hall : Expr.AllOf P Q es) (hmem : e ∈ es) : e.All P Q := by
  induction es with
  | nil => cases hmem
  | cons e' es ih =>
    rcases List.mem_cons.1 hmem with rfl | hlater
    · exact hall.1
    · exact ih hall.2 hlater

/-- The parts of a written expression are written. -/
theorem written_of_operation {e : Expr} {name : String} {parts : List Part} (hwritten : e.Written)
    (hcalls : e.operation? = some (name, parts)) : ∀ p ∈ parts, p.Written := by
  unfold Expr.operation? at hcalls
  split at hcalls
  · cases hcalls
    have hname : (Part.expr (.column _)).Written := ⟨hwritten.1, trivial⟩
    exact List.forall_mem_cons.2 ⟨hname, List.forall_mem_singleton.2 hwritten.2⟩
  · cases hcalls
    intro p hmem
    rcases List.mem_append.1 hmem with hargument | hextra
    · obtain ⟨e, hinside, rfl⟩ := List.mem_map.1 hargument
      exact all_of_mem hwritten.2.1 hinside
    · obtain ⟨s, hgiven, rfl⟩ := Option.map_eq_some_iff.1 (Option.mem_toList.1 hextra)
      subst hgiven
      exact hwritten.2.2
  · split at hcalls
    · cases hcalls
    · cases hcalls
      exact List.forall_mem_cons.2 ⟨hwritten.1, List.forall_mem_singleton.2 hwritten.2⟩
  · split at hcalls
    · cases hcalls
    · cases hcalls
      exact List.forall_mem_singleton.2 hwritten
  · cases hcalls

/-- Parts are interpreted from left to right. -/
theorem Part.interpretAll_append {ps qs : List Part} :
    interpretAll registry env (ps ++ qs) = do
      let vs ← interpretAll registry env ps
      let ws ← interpretAll registry env qs
      return vs ++ ws := by
  induction ps with
  | nil => simp [interpretAll]
  | cons p ps ih => simp [interpretAll, ih]

theorem Part.interpretAll_expr {es : List Expr} :
    interpretAll registry env (es.map .expr) = Expr.interpretAll registry env es := by
  induction es with
  | nil => rfl
  | cons e es ih => rw [List.map_cons, interpretAll, ih, Expr.interpretAll, interpret]

theorem Part.interpretAll_subscript {s : Option Subscript} :
    interpretAll registry env (s.map .subscript).toList = Subscript.interpret? registry env s := by
  cases s with
  | none => rfl
  | some s =>
    rw [Subscript.interpret?]
    exact bind_congr fun v => rfl

theorem Part.interpret_index {e : Expr} :
    interpret registry env (.subscript (.index e)) = interpret registry env (.expr e) := by
  simp only [interpret, Subscript.interpret]

theorem Part.interpret_given {e : Expr} :
    interpret registry env (.bound (some e)) = interpret registry env (.expr e) := by
  simp only [interpret, Expr.interpret?]

theorem Part.interpret_slice {lower upper step : Option Expr} :
    interpret registry env (.subscript (.slice lower upper step)) =
      (interpretAll registry env [.bound lower, .bound upper, .bound step]).map .tuple := by
  change _ = Value.tuple <$> _
  simp [interpretAll, interpret, Subscript.interpret]

/-- An expression that calls a function has the value of the function on those of its parts. -/
theorem interpret_of_operation {e : Expr} {name : String} {parts : List Part}
    (hcalls : e.operation? = some (name, parts)) : e.interpret registry env =
      Part.interpretAll registry env parts >>= fun vs =>
        registry.find name >>= fun f => f.apply vs := by
  unfold Expr.operation? at hcalls
  split at hcalls
  · cases hcalls
    simp [Part.interpretAll, Part.interpret, Expr.interpret, Expr.column]
  · cases hcalls
    rw [Part.interpretAll_append, Part.interpretAll_expr, Part.interpretAll_subscript]
    simp [Expr.interpret]
  · split at hcalls
    · cases hcalls
    · next himpure =>
      cases hcalls
      rw [Expr.interpret, if_neg himpure]
      simp [Part.interpretAll, Part.interpret]
  · split at hcalls
    · cases hcalls
    · next himpure =>
      cases hcalls
      rw [Expr.interpret, if_neg himpure]
      simp [Part.interpretAll, Part.interpret]
  · cases hcalls

/-- A pure expression is evaluated as a whole, unless it is a literal. -/
theorem interpret_of_pure {e : Expr} (hpure : e.isPure) (hcompound : ∀ value, e ≠ .literal value) :
    e.interpret registry env = e.evaluate env := by
  unfold Expr.interpret
  split
  · exact absurd rfl (hcompound _)
  · rfl
  · cases hpure
  · cases hpure
  · exact if_pos hpure
  · exact if_pos hpure

/-- An operation has the value that its function gives on the values of its parts. -/
theorem interpret_eq_ok_iff {e : Expr} {name : String} {parts : List Part} {f : Function}
    (hcalls : e.operation? = some (name, parts)) (hknown : registry.get? name = some f) :
    e.interpret registry env = .ok v ↔
      ∃ vs, Part.interpretAll registry env parts = .ok vs ∧ f.apply vs = .ok v := by
  rw [interpret_of_operation hcalls, bind_eq_ok_iff]
  simp only [find_eq_ok_iff.2 hknown, ok_bind]

/-- Parts have values exactly if each of them has one. -/
theorem Part.interpretAll_cons_eq_ok_iff {p : Part} {ps : List Part} :
    interpretAll registry env (p :: ps) = .ok vs ↔
      ∃ v ws, p.interpret registry env = .ok v ∧ interpretAll registry env ps = .ok ws ∧
        v :: ws = vs := by
  rw [interpretAll]
  constructor
  · intro h
    obtain ⟨v, hfirst, h⟩ := bind_eq_ok_iff.1 h
    obtain ⟨ws, hrest, h⟩ := bind_eq_ok_iff.1 h
    cases h
    exact ⟨v, ws, hfirst, hrest, rfl⟩
  · rintro ⟨v, ws, hfirst, hrest, rfl⟩
    exact bind_eq_ok_iff.2 ⟨v, hfirst, bind_eq_ok_iff.2 ⟨ws, hrest, rfl⟩⟩

theorem Part.interpretAll_singleton_eq_ok_iff {p : Part} :
    interpretAll registry env [p] = .ok vs ↔ ∃ v, p.interpret registry env = .ok v ∧ [v] = vs := by
  rw [interpretAll_cons_eq_ok_iff]
  constructor
  · rintro ⟨v, _, hvalue, ⟨⟩, rfl⟩
    exact ⟨v, hvalue, rfl⟩
  · rintro ⟨v, hvalue, rfl⟩
    exact ⟨v, [], hvalue, rfl, rfl⟩

/-! ## Definitions in turn -/

theorem interpretText_of_parse {text : String} {e : Expr} (hparsed : Expr.parse text = .ok e) :
    interpretText registry env text = e.interpret registry env := by
  rw [interpretText, hparsed]
  rfl

/-- The last definition is evaluated in the environment that the others leave. -/
theorem interpretInTurn_snoc_eq_ok_iff {definitions : List (String × String)}
    {target text : String} {env' : Environment} :
    interpretInTurn registry env (definitions ++ [(target, text)]) = .ok (vs, env') ↔
      ∃ ws before v, interpretInTurn registry env definitions = .ok (ws, before) ∧
        interpretText registry before text = .ok v ∧ vs = ws ++ [v] ∧
          env' = before.insert target v := by
  induction definitions generalizing env vs with
  | nil =>
    constructor
    · intro h
      obtain ⟨v, hvalue, h⟩ := bind_eq_ok_iff.1 h
      cases h
      exact ⟨[], env, v, rfl, hvalue, rfl, rfl⟩
    · rintro ⟨_, _, v, ⟨⟩, hvalue, rfl, rfl⟩
      exact bind_eq_ok_iff.2 ⟨v, hvalue, rfl⟩
  | cons d ds ih =>
    constructor
    · intro h
      obtain ⟨v, hvalue, h⟩ := bind_eq_ok_iff.1 h
      obtain ⟨⟨rest, last⟩, hturn, h⟩ := bind_eq_ok_iff.1 h
      cases h
      obtain ⟨ws, before, w, hearlier, hvalue', rfl, rfl⟩ := ih.1 hturn
      refine ⟨v :: ws, before, w, ?_, hvalue', rfl, rfl⟩
      exact bind_eq_ok_iff.2 ⟨v, hvalue, bind_eq_ok_iff.2 ⟨_, hearlier, rfl⟩⟩
    · rintro ⟨_, before, w, hturn, hvalue', rfl, rfl⟩
      obtain ⟨v, hvalue, h⟩ := bind_eq_ok_iff.1 hturn
      obtain ⟨⟨ws, last⟩, hturn, h⟩ := bind_eq_ok_iff.1 h
      cases h
      refine bind_eq_ok_iff.2 ⟨v, hvalue, bind_eq_ok_iff.2 ⟨(ws ++ [w], _), ?_, rfl⟩⟩
      exact ih.2 ⟨ws, _, w, hturn, hvalue', rfl, rfl⟩

end ColumnFlow
