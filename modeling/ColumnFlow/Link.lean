import ColumnFlow.Compile
import ColumnFlow.Graph.Search

/-!
# Linking definitions

Definitions `variable = expression` are compiled into one graph. Each definition ends in
a commit that binds its variable. Where tasks may run at the same time, edges keep the
order in which the definitions read and write: a reader of a variable comes after the
latest earlier commit of it, and a commit comes after every earlier reader and after the
previous commit of its variable.
-/

namespace ColumnFlow

inductive LinkError where
  | parse (target : String) (cause : SyntaxError)
  | compile (target : String) (cause : CompileError)
  | graph (cause : GraphError)
deriving DecidableEq

/-- A message under the definition it belongs to. -/
def definitionMessage (target message : String) : String :=
  s!"Definition '{target}':\n{message}"

def LinkError.message : LinkError → String
  | .parse target cause => definitionMessage target cause.message
  | .compile target cause => definitionMessage target cause.message
  | .graph cause => cause.message

/-- The graph of a list of definitions, with each variable and its commit in order. -/
structure Linked where
  graph : Graph
  commits : List (String × String)

namespace Linked

def empty : Linked := ⟨.empty, []⟩

/-- The task that commits the final value of a variable. -/
def commitOf? (l : Linked) (target : String) : Option String := l.commits.reverse.lookup target

def commitTasks (l : Linked) : List String := l.commits.map Prod.snd

end Linked

/-- What has been linked so far: the names drawn, the graph and the latest commit of each
variable. -/
structure Linker where
  names : NameSupply
  linked : Linked
  latest : Table String

namespace Linker

def start : Linker := ⟨.fresh, .empty, .empty⟩

/-- The tasks of `part` that read a committed variable, each with the commit to wait for. -/
def readEdges (l : Linker) (part : Graph) : List (String × String) :=
  l.latest.entries.flatMap fun (name, commit) =>
    (part.dependents name).map fun reader => (reader, commit)

/-- The tasks that a new commit of `target` has to wait for. -/
def earlier (l : Linker) (target : String) : List String :=
  l.linked.graph.dependents target ++ (l.latest.get? target).toList

/-- Add edges to a graph, each a task with the task it comes after. -/
def addEdges (g : Graph) (edges : List (String × String)) : Except GraphError Graph :=
  edges.foldlM (fun g e => g.appendDependency e.1 e.2) g

/-- Link one more compiled definition. -/
def attach (l : Linker) (target : String) (part : Graph) (output : String) :
    Except GraphError Linker := do
  let merged ← l.linked.graph.merge part
  let ordered ← addEdges merged (l.readEdges part)
  let (commit, names) := l.names.next ("commit-" ++ target)
  let committed ← ordered.add commit (.commit target output)
  let graph ← addEdges committed ((l.earlier target).map fun task => (commit, task))
  return {
    names
    linked := ⟨graph, l.linked.commits ++ [(target, commit)]⟩
    latest := l.latest.insert target commit }

/-- Parse, compile and link one more definition. -/
def define (registry : Registry) (l : Linker) (definition : String × String) :
    Except LinkError Linker := do
  let (target, text) := definition
  let e ← (Expr.parse text).mapError (.parse target)
  let (result, names) := e.buildWith l.names registry
  let (part, output) ← result.mapError (.compile target)
  ({ l with names := names }.attach target part output).mapError .graph

end Linker

/-- Link definitions, given as variable and text, in order. -/
def link (definitions : List (String × String)) (registry : Registry) :
    Except LinkError Linked := do
  let l ← definitions.foldlM (Linker.define registry) .start
  return l.linked

end ColumnFlow
