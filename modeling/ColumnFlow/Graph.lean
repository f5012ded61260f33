import ColumnFlow.Task

/-!
# Task graphs

A graph keeps named tasks in the order in which they were added. Edges are implicit in
the tasks' dependencies, which may name tasks that are not there; searching the graph
goes only along the edges that are.
-/

namespace ColumnFlow

inductive GraphError where
  | cycle (task dependency : String)
  | duplicateTask (name : String)
  | selfReference (name : String)
  | unknownTask (name : String)
  | danglingReference (task reference : String)
deriving DecidableEq

def GraphError.message : GraphError → String
  | .cycle task dependency =>
    s!"Task '{task}' cannot depend on '{dependency}': it would create a cycle"
  | .duplicateTask name => s!"Task '{name}' already exists in the graph"
  | .selfReference name => s!"Task '{name}' references itself"
  | .unknownTask name => s!"Task '{name}' not found"
  | .danglingReference task reference =>
    s!"Task '{task}' references '{reference}', which is not in the graph"

/-- Named tasks, and the names first and last added. -/
structure Graph where
  tasks : Table Task
  first? : Option String
  last? : Option String

namespace Graph

def empty : Graph := ⟨.empty, none, none⟩

instance : Inhabited Graph := ⟨empty⟩

def get? (g : Graph) (name : String) : Option Task := g.tasks.get? name

def contains (g : Graph) (name : String) : Bool := g.tasks.contains name

/-- The task names in insertion order. -/
def names (g : Graph) : List String := g.tasks.keys

def size (g : Graph) : Nat := g.tasks.size

/-- The tasks a task waits for; none for a name that is not in the graph. -/
def dependenciesOf (g : Graph) (name : String) : List String :=
  ((g.get? name).map Task.dependencies).getD []

/-- The tasks a task of the graph waits for. -/
def dependencies (g : Graph) (name : String) : Except GraphError (List String) :=
  match g.get? name with
  | some t => .ok t.dependencies
  | none => .error (.unknownTask name)

-- ---------------------------------------------------------------------------
-- Changing a graph
-- ---------------------------------------------------------------------------

/-- Add a task under a new name, which becomes the last. -/
def add (g : Graph) (name : String) (t : Task) : Except GraphError Graph :=
  if g.contains name then .error (.duplicateTask name)
  else if name ∈ t.dependencies then .error (.selfReference name)
  else .ok ⟨g.tasks.insert name t, g.first?.or (some name), some name⟩

/-- A task is added at the end, and nothing else changes. -/
theorem tasks_add {g g' : Graph} {name : String} {t : Task} (h : g.add name t = .ok g') :
    g'.names = g.names ++ [name] ∧ ∀ n, g'.get? n = if n = name then some t else g.get? n := by
  unfold add at h
  split at h
  · cases h
  · next hfresh =>
    split at h
    · cases h
    · cases h
      have habsent : name ∉ g.tasks.keys := fun hm => hfresh ((Table.contains_iff _ _).2 hm)
      refine ⟨?_, fun n => Table.get?_insert _ _ _ _⟩
      simp [names, Table.keys_insert, habsent]

/-- Add every task of `other`, or none if a name is taken. -/
def merge (g other : Graph) : Except GraphError Graph :=
  match other.names.find? g.contains with
  | some name => .error (.duplicateTask name)
  | none =>
    .ok
      { tasks := g.tasks.insertAll other.tasks.entries
        first? := g.first?.or other.first?
        last? := other.last?.or g.last? }

/-- The tasks that read `name`, as a result or as a variable, or come after it. -/
def dependents (g : Graph) (name : String) : List String :=
  (g.tasks.entries.filter fun e => e.2.mentions name).map Prod.fst

/-- Whether two graphs hold the same tasks and agree on the first and the last. -/
def same (g h : Graph) : Bool :=
  g.first? == h.first? && g.last? == h.last? && g.size == h.size &&
    g.tasks.entries.all fun e => (h.get? e.1).any e.2.same

end Graph

end ColumnFlow
