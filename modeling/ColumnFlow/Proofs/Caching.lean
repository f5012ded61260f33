import ColumnFlow.Proofs.Numbering

/-!
# What programs keep

A program keeps the graph that it was compiled to last. A sequence of requests leaves it with what
the expression is compiled to from scratch, under the functions that were registered when it was
compiled last: neither a graph nor a number is left over from anything before.
-/

namespace ColumnFlow

/-- The graph and the output task that an expression is compiled to with fresh names, unless that
fails. -/
def Expr.compiled? (e : Expr) (registry : Registry) : Option (Graph × String) :=
  (e.buildWith .fresh registry).1.toOption

theorem Expr.compiled?_eq_some_iff {e : Expr} {registry : Registry} {built : Graph × String} :
    e.compiled? registry = some built ↔
      ∃ names, e.buildWith .fresh registry = (.ok built, names) := by
  unfold compiled?
  obtain ⟨result, names⟩ := e.buildWith .fresh registry
  cases result with
  | error cause => simp [Except.toOption]
  | ok built' => simp [Except.toOption]

namespace Program

/-! ## Requests -/

/-- What a program is asked to do, with the functions that are registered at the time. -/
inductive Request where
  | toTasks (registry : Registry)
  | build (registry : Registry)
  | rebuild (registry : Registry)
  /-- A graph under names of the caller's. The program is only read for it. -/
  | buildWith (names : NameSupply) (registry : Registry)

/-- The program that a request leaves. -/
def Request.perform (p : Program) : Request → Program
  | .toTasks registry => (p.toTasks registry).2
  | .build registry => (p.build registry).2
  | .rebuild registry => (p.rebuild registry).2
  | .buildWith _ _ => p

/-- The functions under which a request compiles the program's own graph, if it does: always when
it is to be rebuilt, and otherwise if there is none yet. -/
def Request.compiles? (p : Program) : Request → Option Registry
  | .toTasks registry => if p.built?.isNone then some registry else none
  | .build registry => if p.built?.isNone then some registry else none
  | .rebuild registry => some registry
  | .buildWith _ _ => none

/-- The program after requests, in turn. -/
def after (p : Program) : List Request → Program
  | [] => p
  | r :: rs => (r.perform p).after rs

/-- The functions under which the program's own graph was compiled last in the course of requests,
if it ever was. -/
def lastCompiled? (p : Program) : List Request → Option Registry
  | [] => none
  | r :: rs => ((r.perform p).lastCompiled? rs).or (r.compiles? p)

/-! ## One request -/

variable {p : Program} {built : Graph × String}

theorem build_of_built (hcached : p.built? = some built) (registry : Registry) :
    p.build registry = (.ok built, p) := by
  unfold build
  rw [hcached]

theorem toTasks_of_built (hcached : p.built? = some built) (registry : Registry) :
    p.toTasks registry = (.ok built.1, p) := by
  unfold toTasks
  rw [build_of_built hcached]
  rfl

/-- What is compiled now is what fresh names give. It is kept unless it fails, and so are the names
that it has drawn. -/
theorem build_of_none (hnothing : p.built? = none) (registry : Registry) : p.build registry =
    ((p.expr.buildWith .fresh registry).1,
      ⟨p.text, p.expr, p.expr.compiled? registry, (p.expr.buildWith .fresh registry).2⟩) := by
  unfold build
  rw [hnothing]
  rfl

theorem rebuild_eq (p : Program) (registry : Registry) : p.rebuild registry =
    ((p.expr.buildWith .fresh registry).1,
      ⟨p.text, p.expr, p.expr.compiled? registry, (p.expr.buildWith .fresh registry).2⟩) :=
  build_of_none rfl registry

theorem toTasks_of_none (hnothing : p.built? = none) (registry : Registry) : p.toTasks registry =
    ((p.expr.buildWith .fresh registry).1.map Prod.fst, (p.build registry).2) := by
  unfold toTasks
  rw [build_of_none hnothing]

/-- A request that compiles leaves the result, or nothing if that failed; any other leaves the
program as it is. -/
theorem Request.perform_outcome (r : Request) (p : Program) :
    (r.compiles? p = none ∧ r.perform p = p) ∨
      ∃ registry names, r.compiles? p = some registry ∧
        r.perform p = ⟨p.text, p.expr, p.expr.compiled? registry, names⟩ := by
  cases r with
  | buildWith names registry => exact .inl ⟨rfl, rfl⟩
  | rebuild registry => exact .inr ⟨registry, _, rfl, congrArg Prod.snd (p.rebuild_eq registry)⟩
  | toTasks registry | build registry =>
    cases hcached : p.built? with
    | none =>
      have hleft := congrArg Prod.snd (build_of_none hcached registry)
      exact .inr ⟨registry, _, by simp [compiles?, hcached], hleft⟩
    | some built =>
      exact .inl ⟨by simp [compiles?, hcached], congrArg Prod.snd (build_of_built hcached registry)⟩

/-! ## Any number of requests -/

/-- Requests change neither the expression nor its text, and what is kept in the end depends on the
last compilation alone. -/
theorem after_eq (p : Program) (requests : List Request) :
    (p.after requests).text = p.text ∧ (p.after requests).expr = p.expr ∧
      (p.after requests).built? = (p.lastCompiled? requests).elim p.built? p.expr.compiled? := by
  induction requests generalizing p with
  | nil => exact ⟨rfl, rfl, rfl⟩
  | cons r rs ih =>
    rw [after, lastCompiled?]
    rcases r.perform_outcome p with ⟨hidle, hsame⟩ | ⟨registry, names, hcompiles, hleft⟩
    · rw [hidle, hsame, Option.or_none]
      exact ih p
    · rw [hcompiles, hleft]
      obtain ⟨htext, hexpr, hkept⟩ := ih ⟨p.text, p.expr, p.expr.compiled? registry, names⟩
      refine ⟨htext, hexpr, hkept.trans ?_⟩
      -- A later compilation replaces this one; without one the result of this one is still there.
      cases lastCompiled? _ rs with
      | none => rfl
      | some later => rfl

theorem built?_after {p : Program} (hnew : p.built? = none) (requests : List Request) :
    (p.after requests).built? = (p.lastCompiled? requests).bind p.expr.compiled? := by
  rw [(p.after_eq requests).2.2, hnew]
  cases p.lastCompiled? requests with
  | none => rfl
  | some registry => rfl

/-- Whatever has been asked of a program, it keeps what its expression is compiled to from scratch
under the functions of the last compilation, numbered from zero, and nothing if that failed or
there was none. What it keeps is the answer under any functions. Where it keeps nothing, and when
it is rebuilt, the answer is that of compiling from scratch. -/
theorem cache_is_transparent (text : String) (e : Expr) (requests : List Request) :
    let start := ofText text e
    let p := start.after requests
    let kept := (start.lastCompiled? requests).bind e.compiled?
    p.built? = kept ∧ p.output? = kept.map Prod.snd ∧
    (∀ g output, kept = some (g, output) → ∃ registry names,
      start.lastCompiled? requests = some registry ∧ Draft.Numbered registry ⟨names, g⟩) ∧
    (∀ built registry, kept = some built →
      p.build registry = (.ok built, p) ∧ p.toTasks registry = (.ok built.1, p)) ∧
    (∀ registry, kept = none →
      (p.build registry).1 = (e.buildWith .fresh registry).1 ∧
      (p.toTasks registry).1 = (e.buildWith .fresh registry).1.map Prod.fst) ∧
    ∀ registry, (p.rebuild registry).1 = (e.buildWith .fresh registry).1 := by
  intro start p kept
  have hexpr : p.expr = e := (start.after_eq requests).2.1
  have hcached : p.built? = kept := start.built?_after rfl requests
  refine ⟨hcached, congrArg (Option.map Prod.snd) hcached, ?_, ?_, ?_, ?_⟩
  · intro g output hget
    obtain ⟨registry, hlast, hcompiled⟩ := Option.bind_eq_some_iff.1 hget
    obtain ⟨names, hfresh⟩ := Expr.compiled?_eq_some_iff.1 hcompiled
    exact ⟨registry, names, hlast, numbered_of_build hfresh⟩
  · intro result registry hget
    have hbuilt := hcached.trans hget
    exact ⟨build_of_built hbuilt registry, toTasks_of_built hbuilt registry⟩
  · intro registry hnothing
    rw [toTasks_of_none (hcached.trans hnothing), build_of_none (hcached.trans hnothing), hexpr]
    exact ⟨rfl, rfl⟩
  · intro registry
    rw [rebuild_eq, hexpr]

/-- A graph is gone once the program could not be rebuilt, and the next one is numbered from
zero. -/
example :
    let known := Registry.empty.install "f" fun args => .ok (.tuple args)
    let start := ofText "f()" (.call "f" [] none)
    (start.after [.build known, .rebuild .empty]).output? = none ∧
    (start.after [.build known, .rebuild .empty, .toTasks known, .build .empty]).output? =
      some "func-f-0" := by
  decide

end Program

end ColumnFlow
