import ColumnFlow.Builtin
import ColumnFlow.Link
import ColumnFlow.Schedule

/-!
# Running graphs and stages

An engine runs the tasks that requested results need, each once, in an environment. A
stage is a named list of definitions that is linked and run, so that each of its
variables ends up bound in the environment.
-/

namespace ColumnFlow

/-- How graphs are run. -/
structure Engine where
  evaluator : Evaluator
  order : ReportOrder
  /-- Whether a stage without a registry of its own sees the builtin functions. -/
  builtins : Bool

namespace Engine

def standard : Engine := ⟨.onePass, .firstStarted, true⟩

/-- What the targets need, each task once. The whole graph has to be free of cycles. -/
def plan (g : Graph) (targets : List String) : Except GraphError Plan := do
  let _ ← g.topologicalOrder
  let required ← targets.mapM g.requiredFor
  return ⟨g, required.flatten.eraseDups⟩

/-- Run every target with what it needs. All results are returned by name, with the
environment the run leaves. -/
def run (engine : Engine) (g : Graph) (targets : List String) (env : Environment) :
    Except RunError (Table Value) × Environment :=
  match plan g targets with
  | .error e => (.error (.graph e), env)
  | .ok p =>
    (Progress.initial p env).finish engine.evaluator p engine.order 0 p.nodes.length

/-- Run one target and return its result. -/
def get (engine : Engine) (g : Graph) (target : String) (env : Environment) :
    Except RunError Value × Environment :=
  let (results, env) := engine.run g [target] env
  (results.bind fun table =>
    match table.get? target with
    | some v => .ok v
    | none => .error (.graph (.unknownTask target)), env)

end Engine

-- ---------------------------------------------------------------------------
-- Stages
-- ---------------------------------------------------------------------------

/-- Definitions, as variable and text, under a name. -/
structure Stage where
  name : String
  definitions : List (String × String)
deriving DecidableEq

inductive StageError where
  | link (cause : LinkError)
  | run (cause : RunError)
  | noValue (stage target : String)

def StageError.message : StageError → String
  | .link cause => cause.message
  | .run cause => cause.message
  | .noValue stage target => s!"stage '{stage}' produced no value for '{target}'"

namespace Stage

/-- The variables of a stage, each once, in the order of first definition. -/
def targets (s : Stage) : List String := (s.definitions.map Prod.fst).eraseDups

/-- The last value of each variable. -/
def values (s : Stage) (linked : Linked) (results : Table Value) :
    Except StageError (List (String × Value)) :=
  s.targets.mapM fun target =>
    match (linked.commitOf? target).bind results.get? with
    | some v => .ok (target, v)
    | none => .error (.noValue s.name target)

/-- Link and run a stage. Each variable is returned once with its last value. -/
def runWith (s : Stage) (engine : Engine) (registry : Registry) (env : Environment) :
    Except StageError (List (String × Value)) × Environment :=
  match link s.definitions registry with
  | .error e => (.error (.link e), env)
  | .ok linked =>
    let (results, env) := engine.run linked.graph linked.commitTasks env
    ((results.mapError .run).bind (s.values linked), env)

/-- Link and run a stage with the registry that the engine provides. -/
def run (s : Stage) (engine : Engine) (env : Environment) :
    Except StageError (List (String × Value)) × Environment :=
  s.runWith engine (if engine.builtins then .builtins else .empty) env

end Stage

end ColumnFlow
