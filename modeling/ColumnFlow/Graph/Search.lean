import ColumnFlow.Digraph
import ColumnFlow.Graph

/-!
# Searching a graph

Which tasks a task reaches through its dependencies, in which order they can run, and
whether that order exists. The searches end on every graph because each step either
shortens the list of names to visit or visits one more task of the graph.
-/

namespace ColumnFlow.Graph

/-- The number of tasks of the graph that are not among `seen`. -/
def unseen (g : Graph) (seen : List String) : Nat := g.names.countP (· ∉ seen)

/-- Seeing one more name leaves no more tasks unseen. -/
theorem unseen_cons_le (g : Graph) (name : String) (seen : List String) :
    g.unseen (name :: seen) ≤ g.unseen seen :=
  countP_unseen_cons_le g.names seen name

/-- Seeing one more task of the graph leaves fewer unseen. -/
theorem unseen_cons_lt {g : Graph} {seen : List String} {name : String}
    (hknown : name ∈ g.names) (hfresh : name ∉ seen) :
    g.unseen (name :: seen) < g.unseen seen :=
  countP_unseen_cons_lt hknown hfresh

theorem mem_names_of_get? {g : Graph} {name : String} {t : Task} (h : g.get? name = some t) :
    name ∈ g.names := by
  rcases Classical.em (name ∈ g.tasks.keys) with hknown | hunknown
  · exact hknown
  · rw [get?, (Table.get?_eq_none_iff _ _).2 hunknown] at h
    cases h

-- ---------------------------------------------------------------------------
-- Reachability
-- ---------------------------------------------------------------------------

/-- Everything reached from the names in `todo`, added to what was `seen` before. -/
def reach (g : Graph) (todo seen : List String) : List String :=
  match todo with
  | [] => seen
  | name :: rest =>
    if name ∈ seen then g.reach rest seen
    else
      match _h : g.get? name with
      | none => g.reach rest (name :: seen)
      | some t => g.reach (t.dependencies ++ rest) (name :: seen)
termination_by (g.unseen seen, todo.length)
decreasing_by
  · exact .right _ (by simp)
  · rcases Nat.lt_or_eq_of_le (g.unseen_cons_le name seen) with hlt | heq
    · exact .left _ _ hlt
    · rw [heq]; exact .right _ (by simp)
  · exact .left _ _ (unseen_cons_lt (mem_names_of_get? _h) (by assumption))

/-- Whether `source` is `target` or depends on it, directly or through other tasks. -/
def dependsOn (g : Graph) (source target : String) : Bool := decide (target ∈ g.reach [source] [])

/-- Let `task` come after `extra`, unless `extra` already depends on `task`. -/
def appendDependency (g : Graph) (task extra : String) : Except GraphError Graph :=
  if !g.contains task then .error (.unknownTask task)
  else if !g.contains extra then .error (.unknownTask extra)
  else if task = extra ∨ g.dependsOn extra task then .error (.cycle task extra)
  else
    .ok { g with
      tasks := g.tasks.modify task fun t =>
        if extra ∈ t.after then t else { t with after := t.after ++ [extra] } }

-- ---------------------------------------------------------------------------
-- What a task needs
-- ---------------------------------------------------------------------------

/-- A step of a walk in which every task follows its dependencies. -/
inductive Step where
  /-- Go to a task, from the task that refers to it. -/
  | enter (name parent : String)
  /-- List a task whose dependencies are listed. -/
  | leave (name : String)

/-- Take the steps in `todo`, having entered the tasks `seen` and listed those in `done`,
the last one first. -/
def walk (g : Graph) (todo : List Step) (seen done : List String) :
    Except GraphError (List String) :=
  match todo with
  | [] => .ok done.reverse
  | .leave name :: rest => g.walk rest seen (name :: done)
  | .enter name parent :: rest =>
    if name ∈ seen then g.walk rest seen done
    else
      match _h : g.get? name with
      | none => .error (.danglingReference parent name)
      | some t =>
        g.walk (t.dependencies.map (.enter · name) ++ .leave name :: rest) (name :: seen) done
termination_by (g.unseen seen, todo.length)
decreasing_by
  · exact .right _ (by simp)
  · exact .right _ (by simp)
  · exact .left _ _ (unseen_cons_lt (mem_names_of_get? _h) (by assumption))

/-- A task and everything it needs, dependencies first. -/
def requiredFor (g : Graph) (name : String) : Except GraphError (List String) :=
  if g.contains name then g.walk [.enter name name] [] []
  else .error (.unknownTask name)

-- ---------------------------------------------------------------------------
-- Orders
-- ---------------------------------------------------------------------------

/-- The dependencies of a task that are in the graph. -/
def innerDependencies (g : Graph) (name : String) : List String :=
  (g.dependenciesOf name).filter g.contains

/-- Whether everything a task waits for is among `placed`. -/
def isReady (g : Graph) (placed : List String) (name : String) : Bool :=
  (g.innerDependencies name).all fun d => decide (d ∈ placed)

/-- Whether each task of a list finds what it waits for among `placed` and before it. -/
def readyInTurn (g : Graph) (placed : List String) : List String → Bool
  | [] => true
  | name :: rest => g.isReady placed name && g.readyInTurn (name :: placed) rest

/-- Whether a list holds every task once, each after its dependencies in the graph. -/
def isOrder (g : Graph) (order : List String) : Bool :=
  order.isPerm g.names && g.readyInTurn [] order

/-- From every dependency in the graph to the task that needs it, task by task. -/
def innerEdges (g : Graph) : List (String × String) :=
  g.names.flatMap fun name => (g.innerDependencies name).map fun d => (d, name)

/-- The tasks as the nodes of a directed graph. References to tasks that are not there are left
out. -/
def dag (g : Graph) : Digraph :=
  g.innerEdges.foldl (fun d e => d.addEdge e.1 e.2) (g.names.foldl Digraph.addNode .empty)

/-- The edge of a cycle that is reported for a task on it: to the first of its dependencies to which
a path leads back. -/
def cycleThrough (g : Graph) (library : DigraphLibrary) (task : String) : GraphError :=
  .cycle task (((g.dependenciesOf task).find? fun d => library.hasPath g.dag task d).getD task)

/-- Every task, each after its dependencies in the graph, as a library of graph algorithms finds
them. -/
def topologicalOrder (g : Graph) (library : DigraphLibrary := .depthFirst) :
    Except GraphError (List String) :=
  (library.toposort g.dag).mapError (g.cycleThrough library)

/-- The first reference that makes a task invalid. -/
def badReference? (g : Graph) (name : String) (t : Task) : Option GraphError :=
  t.dependencies.findSome? fun d =>
    if d = name then some (.selfReference name)
    else if g.contains d then none
    else some (.danglingReference name d)

/-- Every reference resolves and there is no cycle. -/
def validate (g : Graph) (library : DigraphLibrary := .depthFirst) : Except GraphError Unit := do
  match g.tasks.entries.findSome? fun e => g.badReference? e.1 e.2 with
  | some e => .error e
  | none => (g.topologicalOrder library).map fun _ => ()

end ColumnFlow.Graph
