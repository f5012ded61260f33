import ColumnFlow.Graph

/-!
# Mermaid diagrams

A graph as a flowchart: one line for each task, numbered in insertion order, then one line
for each edge from a task to one that waits for it. An edge that carries a result is
solid, one that only orders is dotted.
-/

namespace ColumnFlow

namespace Mermaid

/-- How a character of a label is written; a quote would end the label. -/
def labelChar (c : Char) : List Char := if c = '"' then "#quot;".toList else [c]

/-- A label between quotes. -/
def label (s : String) : String := String.ofList ('"' :: s.toList.flatMap labelChar ++ ['"'])

/-- The line of a task. -/
def nodeLine (index : Nat) (name : String) (t : Task) : String :=
  "    " ++ toString index ++ "[" ++ label (name ++ ": " ++ t.label) ++ "]\n"

/-- How an edge looks. -/
inductive Stroke where
  | solid
  | dotted
deriving DecidableEq, Repr

def Stroke.arrow : Stroke → String
  | .solid => "-->"
  | .dotted => "-.->"

/-- The edge from a task to one that waits for it, by their places. -/
structure Edge where
  source : Nat
  target : Nat
  stroke : Stroke
deriving DecidableEq, Repr

/-- The line of an edge. -/
def Edge.line (e : Edge) : String :=
  "    " ++ toString e.source ++ " " ++ e.stroke.arrow ++ " " ++ toString e.target ++ "\n"

/-- The edges that end at a task. Dependencies outside the graph have none. -/
def edgesInto (g : Graph) (target : Nat) (t : Task) : List Edge :=
  t.dependencies.filterMap fun d =>
    (g.tasks.indexOf? d).map fun source =>
      ⟨source, target, if d ∈ t.after then .dotted else .solid⟩

/-- The edges of a graph, those into an earlier task first. -/
def edges (g : Graph) : List Edge :=
  g.tasks.values.zipIdx.flatMap fun (t, target) => edgesInto g target t

end Mermaid

/-- The Mermaid text of a graph. -/
def Graph.mermaid (g : Graph) : String :=
  let nodes := g.tasks.entries.zipIdx.map fun (e, index) => Mermaid.nodeLine index e.1 e.2
  "graph LR\n" ++ String.join nodes ++ String.join ((Mermaid.edges g).map Mermaid.Edge.line)

end ColumnFlow
