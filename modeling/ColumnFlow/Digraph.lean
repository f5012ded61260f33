/-!
# Directed graphs and what a graph library answers about them

A directed graph keeps its nodes and its edges in the order in which they were added. Sorting one
and looking for a path in it are left to a library, of which only its answers count. One library,
which searches depth first, is given here.
-/

namespace ColumnFlow

/-- Seeing one more name leaves no more of a list unseen. -/
theorem countP_unseen_cons_le (names seen : List String) (n : String) :
    names.countP (· ∉ n :: seen) ≤ names.countP (· ∉ seen) :=
  List.countP_mono_left fun m _ hunseen => by simp_all

/-- Seeing one more name of a list leaves fewer of it unseen. -/
theorem countP_unseen_cons_lt {names seen : List String} {n : String} (hmem : n ∈ names)
    (hnew : n ∉ seen) : names.countP (· ∉ n :: seen) < names.countP (· ∉ seen) := by
  obtain ⟨front, back, rfl⟩ := List.append_of_mem hmem
  have hfront := countP_unseen_cons_le front seen n
  have hback := countP_unseen_cons_le back seen n
  have hseen : decide (n ∉ n :: seen) = false := by simp
  have hunseen : decide (n ∉ seen) = true := by simp [hnew]
  simp only [List.countP_append, List.countP_cons, hseen, hunseen]
  simp only [Bool.false_eq_true, if_false, if_true]
  omega

/-- A directed graph over names. -/
structure Digraph where
  nodes : List String
  /-- Source and target of each edge. -/
  edges : List (String × String)
  nodup : nodes.Nodup
  inside : ∀ e ∈ edges, e.1 ∈ nodes ∧ e.2 ∈ nodes

namespace Digraph

def empty : Digraph := ⟨[], [], .nil, nofun⟩

/-- Add a node, unless it is there. -/
def addNode (d : Digraph) (n : String) : Digraph :=
  if h : n ∈ d.nodes then d
  else
    { nodes := d.nodes ++ [n]
      edges := d.edges
      nodup := List.nodup_append.2 ⟨d.nodup, by simp, fun m hm k hk hmk => by simp_all⟩
      inside := fun e he =>
        (d.inside e he).imp (List.mem_append_left _) (List.mem_append_left _) }

theorem mem_nodes_addNode {d : Digraph} {n m : String} :
    m ∈ (d.addNode n).nodes ↔ m ∈ d.nodes ∨ m = n := by
  unfold addNode
  split <;> simp_all

theorem nodes_addNode {d : Digraph} {n : String} (hnew : n ∉ d.nodes) :
    (d.addNode n).nodes = d.nodes ++ [n] := by
  rw [addNode, dif_neg hnew]

theorem addNode_of_mem {d : Digraph} {n : String} (hmem : n ∈ d.nodes) : d.addNode n = d :=
  dif_pos hmem

@[simp] theorem edges_addNode (d : Digraph) (n : String) : (d.addNode n).edges = d.edges := by
  unfold addNode
  split <;> rfl

/-- Add an edge, unless it is there, with the nodes at its ends. -/
def addEdge (d : Digraph) (source target : String) : Digraph :=
  if (source, target) ∈ d.edges then d
  else
    let d' := (d.addNode source).addNode target
    { nodes := d'.nodes
      edges := d.edges ++ [(source, target)]
      nodup := d'.nodup
      inside := fun e he => by
        rcases List.mem_append.1 he with hold | hnew
        · exact d'.inside e (by simpa [d'] using hold)
        · simp_all [d', mem_nodes_addNode] }

theorem mem_edges_addEdge {d : Digraph} {source target : String} {e : String × String} :
    e ∈ (d.addEdge source target).edges ↔ e ∈ d.edges ∨ e = (source, target) := by
  unfold addEdge
  split <;> simp_all

/-- An edge between nodes of a graph adds no others. -/
theorem nodes_addEdge {d : Digraph} {source target : String} (hsource : source ∈ d.nodes)
    (htarget : target ∈ d.nodes) : (d.addEdge source target).nodes = d.nodes := by
  unfold addEdge
  split
  · rfl
  · dsimp only
    rw [addNode_of_mem hsource, addNode_of_mem htarget]

/-- Where the edges that leave a node lead. -/
def successors (d : Digraph) (n : String) : List String :=
  (d.edges.filter fun e => e.1 = n).map Prod.snd

/-- Where the edges that lead to a node come from. -/
def predecessors (d : Digraph) (n : String) : List String :=
  (d.edges.filter fun e => e.2 = n).map Prod.fst

theorem mem_successors_iff {d : Digraph} {n m : String} :
    m ∈ d.successors n ↔ (n, m) ∈ d.edges := by
  simp [successors]

theorem mem_predecessors_iff {d : Digraph} {n m : String} :
    m ∈ d.predecessors n ↔ (m, n) ∈ d.edges := by
  simp [predecessors]

/-- A name that is not a node has no successors. -/
theorem successors_eq_nil {d : Digraph} {n : String} (hunknown : n ∉ d.nodes) :
    d.successors n = [] :=
  List.eq_nil_iff_forall_not_mem.2 fun _ hmem =>
    hunknown (d.inside _ (mem_successors_iff.1 hmem)).1

-- ---------------------------------------------------------------------------
-- Searching depth first
-- ---------------------------------------------------------------------------

/-- The number of nodes that are not among `seen`. -/
def unseen (d : Digraph) (seen : List String) : Nat := d.nodes.countP (· ∉ seen)

/-- A name that is seen first is one of the nodes, of which fewer are left, or it leads nowhere. -/
theorem unseen_cons (d : Digraph) {seen : List String} {n : String} (hnew : n ∉ seen) :
    d.unseen (n :: seen) < d.unseen seen ∨
      d.unseen (n :: seen) = d.unseen seen ∧ d.successors n = [] := by
  by_cases hknown : n ∈ d.nodes
  · exact .inl (countP_unseen_cons_lt hknown hnew)
  · rcases Nat.lt_or_eq_of_le (countP_unseen_cons_le d.nodes seen n) with hlt | heq
    · exact .inl hlt
    · exact .inr ⟨heq, successors_eq_nil hknown⟩

/-- Everything reached from the nodes in `todo`, added to what was `seen` before. -/
def reached (d : Digraph) (todo seen : List String) : List String :=
  match todo with
  | [] => seen
  | n :: rest =>
    if n ∈ seen then d.reached rest seen
    else d.reached ((d.successors n).reverse ++ rest) (n :: seen)
termination_by (d.unseen seen, todo.length)
decreasing_by
  · exact .right _ (by simp)
  · rename_i hnew
    rcases d.unseen_cons hnew with hlt | ⟨heq, hnone⟩
    · exact .left _ _ hlt
    · rw [heq, hnone]
      exact .right _ (by simp)

/-- The nodes in the reverse of the order in which a search depth first is done with them, or a
node with an edge to itself. The nodes in `pending` are to be visited next. Those in `opened` are
being visited, the last one first, each with the nodes to visit when it is done. -/
def finish (d : Digraph) (pending : List String) (opened : List (String × List String))
    (seen done : List String) : Except String (List String) :=
  match pending, opened with
  | [], [] => .ok done
  | [], (n, later) :: outer => d.finish later outer seen (n :: done)
  | n :: later, opened =>
    if n ∈ seen then d.finish later opened seen done
    else if n ∈ d.successors n then .error n
    else d.finish (d.successors n).reverse ((n, later) :: opened) (n :: seen) done
termination_by
  (d.unseen seen, 2 * (pending ++ opened.flatMap Prod.snd).length + opened.length)
decreasing_by
  · refine .right _ ?_
    simp only [List.nil_append, List.flatMap_cons, List.length_cons]
    omega
  · refine .right _ ?_
    simp only [List.cons_append, List.length_cons]
    omega
  · rename_i hnew _
    rcases d.unseen_cons hnew with hlt | ⟨heq, hnone⟩
    · exact .left _ _ hlt
    · rw [heq, hnone]
      refine .right _ ?_
      simp only [List.reverse_nil, List.nil_append, List.flatMap_cons, List.cons_append,
        List.length_cons]
      omega

/-- A node that stands after one of its successors. -/
def belated? (d : Digraph) (placed : List String) : List String → Option String
  | [] => none
  | n :: rest =>
    match ((d.predecessors n).filter (· ∉ n :: placed)).getLast? with
    | some m => some m
    | none => d.belated? (n :: placed) rest

end Digraph

/-- What a library of graph algorithms answers. -/
structure DigraphLibrary where
  /-- The nodes in an order that the edges respect, or a node that a cycle goes through. -/
  toposort : Digraph → Except String (List String)
  /-- Whether a path leads from one node to another. -/
  hasPath : Digraph → String → String → Bool

/-- The library that searches depth first, a node's last successor before its first. The order in
which it is done with the nodes, reversed, is an order that the edges respect if there is one. -/
def DigraphLibrary.depthFirst : DigraphLibrary where
  toposort d := do
    let order ← d.finish d.nodes [] [] []
    match d.belated? [] order with
    | some n => .error n
    | none => .ok order
  hasPath d source target := decide (target ∈ d.reached [source] [])

example : DigraphLibrary.depthFirst.toposort ((Digraph.empty.addNode "a").addNode "b") =
    .ok ["b", "a"] := by
  cbv

end ColumnFlow
