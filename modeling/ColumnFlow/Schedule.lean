import ColumnFlow.Graph.Search

/-!
# Scheduling

A run starts a task as soon as everything it depends on has reported a result. A counter
for each task says how many results it still waits for, a dependency that is named twice
counting twice. Which of the tasks in flight reports next is not decided here: every
order is possible, and the order is an argument.
-/

namespace ColumnFlow

/-- The tasks of a run and the graph they come from. -/
structure Plan where
  graph : Graph
  nodes : List String

/-- A started task with the results it was started with. -/
structure Flight where
  name : String
  inputs : Table Value

/-- The state of a run between two reports. -/
structure Progress where
  /-- How many results each task still waits for. -/
  waiting : Table Nat
  /-- Started tasks that have not reported, earliest first. -/
  inFlight : List Flight
  results : Table Value
  env : Environment

namespace Plan

/-- The results of the run that a task waits for, with repetitions. -/
def needs (p : Plan) (name : String) : List String :=
  (p.graph.dependenciesOf name).filter (· ∈ p.nodes)

/-- The tasks that wait for a result, once for each time they do. -/
def dependents (p : Plan) (name : String) : List String :=
  p.nodes.flatMap fun n => (p.needs n).filterMap fun d => if d = name then some n else none

/-- The number of results that each task waits for at the beginning. -/
def counters (p : Plan) : Table Nat :=
  .ofList (p.nodes.map fun n => (n, (p.needs n).length))

/-- The results that a task depends on, as far as they are there. -/
def inputsOf (p : Plan) (results : Table Value) (name : String) : Table Value :=
  .ofList ((p.graph.dependenciesOf name).filterMap fun d => (results.get? d).map fun v => (d, v))

end Plan

namespace Progress

/-- Put a task in flight. -/
def start (p : Plan) (s : Progress) (name : String) : Progress :=
  { s with inFlight := s.inFlight ++ [⟨name, p.inputsOf s.results name⟩] }

/-- One of the results that a task waits for is there; the last one starts it. -/
def countDown (p : Plan) (s : Progress) (name : String) : Progress :=
  match s.waiting.get? name with
  | none => s
  | some count =>
    let s := { s with waiting := s.waiting.insert name (count - 1) }
    if count - 1 = 0 then s.start p name else s

/-- Nothing has reported; the tasks that wait for nothing are in flight. -/
def initial (p : Plan) (env : Environment) : Progress :=
  (p.nodes.filter fun n => (p.needs n).isEmpty).foldl (start p) ⟨p.counters, [], .empty, env⟩

/-- A task reports its result. -/
def deliver (p : Plan) (s : Progress) (name : String) (v : Value) : Progress :=
  (p.dependents name).foldl (countDown p) { s with results := s.results.insert name v }

/-- A task in flight, by its place, and the others. -/
def pick? (flights : List Flight) (place : Nat) : Option (Flight × List Flight) :=
  let i := place % flights.length
  flights[i]?.map fun f => (f, flights.eraseIdx i)

/-- The work of a started task, with faults counted as errors. -/
def perform (evaluator : Evaluator) (p : Plan) (env : Environment) (f : Flight) :
    Except TaskError (Value × Environment) :=
  match p.graph.get? f.name with
  | none => .error .notInGraph
  | some t => (t.run evaluator f.inputs.get? env).mapError Failure.asTaskError

end Progress

/-- An order of reports: the place in flight of the task that reports as the k-th, modulo
the number in flight. -/
abbrev ReportOrder : Type := Nat → Nat

/-- Reports in the order in which the tasks were started. -/
def ReportOrder.firstStarted : ReportOrder := fun _ => 0

inductive RunError where
  | graph (cause : GraphError)
  | task (name : String) (cause : TaskError)
  | interrupted

def RunError.message : RunError → String
  | .graph cause => cause.message
  | .task name cause => s!"Task '{name}':\n{cause.message}"
  | .interrupted => "Workers stopped reporting before every task finished"

namespace Progress

/-- The environment after the tasks in flight have come to their ends, whatever these are.
A run that fails still waits for what it has started. -/
def drain (evaluator : Evaluator) (p : Plan) (order : ReportOrder) (step : Nat)
    (env : Environment) (flights : List Flight) : Environment :=
  match _h : pick? flights (order step) with
  | none => env
  | some (f, others) =>
    let env := match perform evaluator p env f with
      | .ok (_, env) => env
      | .error _ => env
    drain evaluator p order (step + 1) env others
termination_by flights.length
decreasing_by
  simp only [pick?, Option.map_eq_some_iff, Prod.mk.injEq] at _h
  obtain ⟨g, hget, _, rfl⟩ := _h
  obtain ⟨hbound, _⟩ := List.getElem?_eq_some_iff.1 hget
  rw [List.length_eraseIdx_of_lt hbound]
  omega

/-- Let tasks report until `left` more have, and return all results. -/
def finish (evaluator : Evaluator) (p : Plan) (order : ReportOrder) (step : Nat) :
    Nat → Progress → Except RunError (Table Value) × Environment
  | 0, s => (.ok s.results, s.env)
  | left + 1, s =>
    match pick? s.inFlight (order step) with
    | none => (.error .interrupted, s.env)
    | some (f, others) =>
      match perform evaluator p s.env f with
      | .error e => (.error (.task f.name e), drain evaluator p order (step + 1) s.env others)
      | .ok (v, env) =>
        finish evaluator p order (step + 1) left
          (deliver p { s with inFlight := others, env := env } f.name v)

end Progress

end ColumnFlow
