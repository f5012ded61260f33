import Mathlib.Logic.Relation
import ColumnFlow.Digraph

/-!
# What a library of graph algorithms is relied on for

A library sorts a graph if its edges form no cycle and names a node on a cycle if they do, and it
knows which nodes a path leads to. A search depth first does both: it is done with a node only after
everything that the node leads to, unless this leads back to it.
-/

namespace ColumnFlow

namespace Digraph

variable {d : Digraph} {pending seen done order placed : List String}
  {opened : List (String × List String)} {n m source target : String}

/-- An edge leads from one node to another. -/
def HasEdge (d : Digraph) (source target : String) : Prop := (source, target) ∈ d.edges

/-- The list has every node once, each before the nodes that edges from it lead to. -/
structure Sorts (d : Digraph) (order : List String) : Prop where
  perm : order.Perm d.nodes
  inTurn : ∀ before n after, order = before ++ n :: after → ∀ m, d.HasEdge m n → m ∈ before

end Digraph

/-- A library keeps to its documentation: sorting gives an order that the edges respect or a node
on a cycle, and a path is found if there is one, the empty path included. -/
structure DigraphLibrary.Lawful (library : DigraphLibrary) : Prop where
  toposort_ok : ∀ {d : Digraph} {order : List String},
    library.toposort d = .ok order → d.Sorts order
  toposort_error : ∀ {d : Digraph} {n : String},
    library.toposort d = .error n → Relation.TransGen d.HasEdge n n
  hasPath_iff : ∀ {d : Digraph} {source target : String}, source ∈ d.nodes →
    (library.hasPath d source target = true ↔ Relation.ReflTransGen d.HasEdge source target)

namespace Digraph

variable {d : Digraph} {pending seen done order placed : List String}
  {opened : List (String × List String)} {n m source target : String}

/-! ## Building a graph -/

/-- Nodes that are new are added in their order. -/
theorem nodes_foldl_addNode {names : List String} (hnodup : (d.nodes ++ names).Nodup) :
    (names.foldl addNode d).nodes = d.nodes ++ names := by
  induction names generalizing d with
  | nil => exact (List.append_nil _).symm
  | cons n names ih =>
    have hnew : n ∉ d.nodes := fun hmem =>
      (List.nodup_append.1 hnodup).2.2 n hmem n List.mem_cons_self rfl
    rw [List.append_cons, ← nodes_addNode hnew] at hnodup ⊢
    exact ih hnodup

theorem edges_foldl_addNode (names : List String) : (names.foldl addNode d).edges = d.edges := by
  induction names generalizing d with
  | nil => rfl
  | cons n names ih => exact ih.trans (edges_addNode d n)

/-- Edges between nodes of a graph are added to those it has, and no nodes. -/
theorem foldl_addEdge {edges : List (String × String)}
    (hknown : ∀ e ∈ edges, e.1 ∈ d.nodes ∧ e.2 ∈ d.nodes) :
    (edges.foldl (fun d e => d.addEdge e.1 e.2) d).nodes = d.nodes ∧
      ∀ e, e ∈ (edges.foldl (fun d e => d.addEdge e.1 e.2) d).edges ↔ e ∈ d.edges ∨ e ∈ edges := by
  induction edges generalizing d with
  | nil => exact ⟨rfl, fun e => (or_iff_left List.not_mem_nil).symm⟩
  | cons first rest ih =>
    obtain ⟨⟨hsource, htarget⟩, hrest⟩ := List.forall_mem_cons.1 hknown
    have hnodes := nodes_addEdge hsource htarget
    rw [List.foldl_cons]
    obtain ⟨hnodes', hedges⟩ := @ih (d.addEdge first.1 first.2) (by rwa [hnodes])
    refine ⟨hnodes'.trans hnodes, fun e => (hedges e).trans ?_⟩
    rw [mem_edges_addEdge, List.mem_cons, or_assoc]

/-! ## Reachability -/

/-- What is reached from nodes with a property has it, if it passes on along edges. -/
theorem reached_inside {P : String → Prop} (hpass : ∀ n, P n → ∀ m, d.HasEdge n m → P m)
    (hpending : ∀ n ∈ pending, P n) (hseen : ∀ n ∈ seen, P n) :
    ∀ n ∈ d.reached pending seen, P n := by
  fun_induction d.reached pending seen with
  | case1 seen => exact hseen
  | case2 seen n rest hold ih => exact ih (List.forall_mem_cons.1 hpending).2 hseen
  | case3 seen n rest hnew ih =>
    obtain ⟨hn, hrest⟩ := List.forall_mem_cons.1 hpending
    refine ih (List.forall_mem_append.2 ⟨fun m hm => ?_, hrest⟩)
      (List.forall_mem_cons.2 ⟨hn, hseen⟩)
    exact hpass n hn m (mem_successors_iff.1 (List.mem_reverse.1 hm))

/-- What the nodes seen lead to has been seen or is pending. -/
def Closing (leads : String → String → Prop) (pending seen : List String) : Prop :=
  ∀ n ∈ seen, ∀ m, leads n m → m ∈ seen ∨ m ∈ pending

/-- A node that was seen is not visited again. -/
theorem Closing.skip {leads : String → String → Prop} (h : Closing leads (n :: pending) seen)
    (hold : n ∈ seen) : Closing leads pending seen := by
  intro k hk m hleads
  rcases h k hk m hleads with hm | hm
  · exact .inl hm
  · exact (List.mem_cons.1 hm).imp_left fun heq => by rwa [heq]

/-- A new node is visited by putting all that it leads to ahead of what is pending. -/
theorem Closing.visit {leads : String → String → Prop} {next : List String}
    (h : Closing leads (n :: pending) seen) (hall : ∀ m, leads n m → m ∈ next) :
    Closing leads (next ++ pending) (n :: seen) := by
  refine List.forall_mem_cons.2 ⟨fun m hleads => ?_, fun k hk m hleads => ?_⟩
  · exact .inr (List.mem_append_left _ (hall m hleads))
  · rcases h k hk m hleads with hm | hm
    · exact .inl (List.mem_cons_of_mem _ hm)
    · rcases List.mem_cons.1 hm with rfl | hm
      · exact .inl List.mem_cons_self
      · exact .inr (List.mem_append_right _ hm)

/-- The nodes that are reached are closed under edges. -/
theorem reached_closed (hclosing : Closing d.HasEdge pending seen) :
    (∀ n ∈ seen, n ∈ d.reached pending seen) ∧ (∀ n ∈ pending, n ∈ d.reached pending seen) ∧
      ∀ n ∈ d.reached pending seen, ∀ m, d.HasEdge n m → m ∈ d.reached pending seen := by
  -- Along the recursion of the search, with `Closing` as its invariant.
  fun_induction d.reached pending seen with
  | case1 seen =>
    refine ⟨fun n hn => hn, List.forall_mem_nil _, fun n hn m hedge => ?_⟩
    exact (hclosing n hn m hedge).resolve_right List.not_mem_nil
  | case2 seen n rest hold ih =>
    obtain ⟨hseen, hrest, hdown⟩ := ih (hclosing.skip hold)
    exact ⟨hseen, List.forall_mem_cons.2 ⟨hseen n hold, hrest⟩, hdown⟩
  | case3 seen n rest hnew ih =>
    obtain ⟨hseen, hrest, hdown⟩ := ih (hclosing.visit fun m hedge =>
      List.mem_reverse.2 (mem_successors_iff.2 hedge))
    rw [List.forall_mem_cons] at hseen
    rw [List.forall_mem_append] at hrest
    exact ⟨hseen.2, List.forall_mem_cons.2 ⟨hseen.1, hrest.2⟩, hdown⟩

/-- From a node exactly the nodes are reached to which a path leads. -/
theorem mem_reached_iff :
    target ∈ d.reached [source] [] ↔ Relation.ReflTransGen d.HasEdge source target := by
  constructor
  · refine reached_inside (P := Relation.ReflTransGen d.HasEdge source) ?_ ?_ ?_ target
    · exact fun n hn m hedge => hn.tail hedge
    · exact List.forall_mem_singleton.2 .refl
    · exact List.forall_mem_nil _
  · obtain ⟨-, hsource, hdown⟩ := @reached_closed d [source] [] (List.forall_mem_nil _)
    intro hpath
    induction hpath with
    | refl => exact hsource source List.mem_cons_self
    | tail _ hedge ih => exact hdown _ ih _ hedge

/-! ## Searching depth first -/

/-- Where a search stands: the nodes to visit next are successors of the node that was opened last,
or nodes of the graph if none is open, and those that are left out have been seen. So it is with
every open node and the one that was opened before it. -/
def Framed (d : Digraph) (seen : List String) :
    List String → List (String × List String) → Prop
  | pending, [] => (∀ n ∈ pending, n ∈ d.nodes) ∧ ∀ n ∈ d.nodes, n ∈ seen ∨ n ∈ pending
  | pending, (n, later) :: outer =>
    (∀ m ∈ pending, d.HasEdge n m) ∧ (∀ m, d.HasEdge n m → m ∈ seen ∨ m ∈ pending) ∧
      d.Framed seen (n :: later) outer

/-- Nodes that have been seen need not be visited. -/
theorem Framed.mono {pending' seen' : List String} (h : d.Framed seen pending opened)
    (hsub : ∀ n ∈ pending', n ∈ pending) (hseen : ∀ n ∈ seen, n ∈ seen')
    (hleft : ∀ n ∈ pending, n ∈ seen' ∨ n ∈ pending') : d.Framed seen' pending' opened := by
  have hcover (m : String) (hm : m ∈ seen ∨ m ∈ pending) : m ∈ seen' ∨ m ∈ pending' :=
    hm.elim (fun hm => .inl (hseen m hm)) (hleft m)
  induction opened generalizing pending pending' with
  | nil => exact ⟨fun n hn => h.1 n (hsub n hn), fun n hn => hcover n (h.2 n hn)⟩
  | cons f outer ih =>
    refine ⟨fun m hm => h.1 m (hsub m hm), fun m hedge => hcover m (h.2.1 m hedge), ?_⟩
    refine ih h.2.2 (fun _ hm => hm) (fun _ hm => .inr hm) fun m hm => ?_
    exact hm.imp_left (hseen m)

/-- The nodes to visit next can be reached from every open node. -/
theorem Framed.path (h : d.Framed seen pending opened) (hpending : n ∈ pending)
    (hopen : m ∈ opened.map Prod.fst) : Relation.TransGen d.HasEdge m n := by
  induction opened generalizing pending n with
  | nil => exact absurd hopen List.not_mem_nil
  | cons f outer ih =>
    obtain ⟨hedges, -, houter⟩ := h
    rcases List.mem_cons.1 hopen with rfl | hopen
    · exact .single (hedges n hpending)
    · exact (ih houter List.mem_cons_self hopen).tail (hedges n hpending)

/-- The next node to enter is one of the graph. -/
theorem Framed.known (h : d.Framed seen (n :: pending) opened) : n ∈ d.nodes := by
  cases opened with
  | nil => exact h.1 n List.mem_cons_self
  | cons f outer => exact (d.inside _ (h.1 n List.mem_cons_self)).2

/-- What holds while the search goes on. A node is open from when it is first seen until the search
is done with it. An edge from a node that is done leads to one that was done before, or the node can
be reached back from its end. -/
structure Searching (d : Digraph) (pending : List String) (opened : List (String × List String))
    (seen done : List String) : Prop where
  framed : d.Framed seen pending opened
  mem_seen_iff : ∀ n, n ∈ seen ↔ n ∈ opened.map Prod.fst ++ done
  nodup : (opened.map Prod.fst ++ done).Nodup
  known : ∀ n ∈ seen, n ∈ d.nodes
  plain : ∀ n ∈ seen, ¬ d.HasEdge n n
  turned : ∀ later n earlier, done = later ++ n :: earlier → ∀ m, d.HasEdge n m →
    m ∈ earlier ∨ Relation.ReflTransGen d.HasEdge m n

/-- The search begins with every node still to enter. -/
theorem searching_initial : d.Searching d.nodes [] [] [] where
  framed := ⟨fun _ hn => hn, fun _ hn => .inr hn⟩
  mem_seen_iff _ := .rfl
  nodup := .nil
  known := List.forall_mem_nil _
  plain := List.forall_mem_nil _
  turned later n earlier hsplit := by simp at hsplit

/-- A node that was seen is passed over. -/
theorem Searching.skip (h : d.Searching (n :: pending) opened seen done) (hold : n ∈ seen) :
    d.Searching pending opened seen done :=
  { h with
    framed := h.framed.mono (fun _ hm => List.mem_cons_of_mem _ hm) (fun _ hm => hm) <|
      List.forall_mem_cons.2 ⟨.inl hold, fun _ hm => .inr hm⟩ }

/-- A new node is opened, unless an edge leads from it to itself. -/
theorem Searching.enter (h : d.Searching (n :: pending) opened seen done) (hnew : n ∉ seen)
    (hplain : n ∉ d.successors n) :
    d.Searching (d.successors n).reverse ((n, pending) :: opened) (n :: seen) done where
  framed := by
    refine ⟨fun m hm => mem_successors_iff.1 (List.mem_reverse.1 hm), fun m hedge => ?_, ?_⟩
    · exact .inr (List.mem_reverse.2 (mem_successors_iff.2 hedge))
    · exact h.framed.mono (fun _ hm => hm) (fun _ hm => List.mem_cons_of_mem _ hm)
        fun _ hm => .inr hm
  mem_seen_iff m := by
    rw [List.map_cons, List.cons_append, List.mem_cons, List.mem_cons, h.mem_seen_iff m]
  nodup := List.nodup_cons.2 ⟨fun hmem => hnew ((h.mem_seen_iff n).2 hmem), h.nodup⟩
  known := List.forall_mem_cons.2 ⟨h.framed.known, h.known⟩
  plain := List.forall_mem_cons.2 ⟨fun hedge => hplain (mem_successors_iff.2 hedge), h.plain⟩
  turned := h.turned

/-- The search is done with the node that was opened last when its successors have been seen. -/
theorem Searching.leave (h : d.Searching [] ((n, pending) :: opened) seen done) :
    d.Searching pending opened seen (n :: done) where
  framed := by
    have hseen : n ∈ seen := (h.mem_seen_iff n).2 List.mem_cons_self
    exact h.framed.2.2.mono (fun _ hm => List.mem_cons_of_mem _ hm) (fun _ hm => hm) <|
      List.forall_mem_cons.2 ⟨.inl hseen, fun _ hm => .inr hm⟩
  mem_seen_iff m := by
    rw [h.mem_seen_iff m]
    exact List.perm_middle.symm.mem_iff
  nodup := List.perm_middle.symm.nodup h.nodup
  known := h.known
  plain := h.plain
  turned later a earlier hsplit m hedge := by
    cases later with
    | cons b later => exact h.turned later a earlier (List.cons.inj hsplit).2 m hedge
    | nil =>
      -- The successors of a node that is left are done or open, and the node was reached from
      -- every open one.
      obtain ⟨rfl, rfl⟩ := List.cons.inj hsplit
      have hseen : m ∈ seen := (h.framed.2.1 m hedge).resolve_right List.not_mem_nil
      rcases List.mem_append.1 ((h.mem_seen_iff m).1 hseen) with hopen | hdone
      · rcases List.mem_cons.1 hopen with rfl | hopen
        · exact .inr .refl
        · exact .inr (h.framed.2.2.path List.mem_cons_self hopen).to_reflTransGen
      · exact .inl hdone

/-- The order in which a search is done with the nodes, reversed. -/
structure Finished (d : Digraph) (order : List String) : Prop where
  perm : order.Perm d.nodes
  plain : ∀ n, ¬ d.HasEdge n n
  turned : ∀ before n after, order = before ++ n :: after → ∀ m, d.HasEdge n m →
    m ∈ after ∨ Relation.ReflTransGen d.HasEdge m n

/-- A search with nothing left to do has listed every node. -/
theorem Searching.finished (h : d.Searching [] [] seen done) : d.Finished done := by
  have hall (n : String) : n ∈ done ↔ n ∈ d.nodes := by
    rw [← List.nil_append done]
    refine (h.mem_seen_iff n).symm.trans ⟨h.known n, fun hn => ?_⟩
    exact (h.framed.2 n hn).resolve_right List.not_mem_nil
  refine ⟨(List.perm_ext_iff_of_nodup h.nodup d.nodup).2 hall, fun n hedge => ?_, h.turned⟩
  exact h.plain n ((h.mem_seen_iff n).2 ((hall n).2 (d.inside _ hedge).1)) hedge

/-- A search is done with every node, or it finds one that has an edge to itself. -/
theorem Searching.outcome (h : d.Searching pending opened seen done) :
    (∃ order, d.finish pending opened seen done = .ok order ∧ d.Finished order) ∨
      ∃ n, d.finish pending opened seen done = .error n ∧ d.HasEdge n n := by
  fun_induction d.finish pending opened seen done with
  | case1 seen done => exact .inl ⟨done, rfl, h.finished⟩
  | case2 seen done n later outer ih => exact ih h.leave
  | case3 opened seen done n later hold ih => exact ih (h.skip hold)
  | case4 opened seen done n later hnew hself =>
    exact .inr ⟨_, rfl, mem_successors_iff.1 hself⟩
  | case5 opened seen done n later hnew hplain ih => exact ih (h.enter hnew hplain)

/-! ## Orders -/

/-- If no node stands after one of its successors, each stands after its predecessors. -/
theorem mem_of_belated?_eq_none (hnone : d.belated? placed order = none)
    {before after : List String} (hsplit : order = before ++ n :: after) (hedge : d.HasEdge m n) :
    m ∈ placed ∨ m ∈ before ∨ m = n := by
  induction order generalizing placed before with
  | nil => simp at hsplit
  | cons k rest ih =>
    unfold belated? at hnone
    split at hnone
    · cases hnone
    · next hlast =>
      cases before with
      | nil =>
        obtain ⟨rfl, rfl⟩ := List.cons.inj hsplit
        rw [List.getLast?_eq_none_iff, List.filter_eq_nil_iff] at hlast
        have hplaced := hlast m (mem_predecessors_iff.2 hedge)
        rw [decide_eq_true_iff, Decidable.not_not] at hplaced
        simpa [or_comm] using hplaced
      | cons b before =>
        obtain ⟨rfl, rfl⟩ := List.cons.inj hsplit
        simpa [or_assoc, or_left_comm] using ih hnone rfl

/-- A node that stands after one of its successors is named with an edge to that one. -/
theorem exists_edge_of_belated?_eq_some (hsome : d.belated? placed order = some m) :
    ∃ before n after, order = before ++ n :: after ∧ d.HasEdge m n ∧
      m ∉ placed ∧ m ∉ before ∧ m ≠ n := by
  induction order generalizing placed with
  | nil => cases hsome
  | cons n rest ih =>
    unfold belated? at hsome
    split at hsome
    · next hlast =>
      cases hsome
      obtain ⟨hpred, hnew⟩ := List.mem_filter.1 (List.mem_of_getLast? hlast)
      obtain ⟨hother, hnew⟩ : m ≠ n ∧ m ∉ placed := by simpa using hnew
      exact ⟨[], n, rest, rfl, mem_predecessors_iff.1 hpred, hnew, List.not_mem_nil, hother⟩
    · obtain ⟨before, k, after, rfl, hedge, hnew, hbefore, hother⟩ := ih hsome
      rw [List.mem_cons, not_or] at hnew
      exact ⟨n :: before, k, after, rfl, hedge, hnew.2, by simp [hnew.1, hbefore], hother⟩

/-- An order that no edge contradicts sorts the graph. -/
theorem Finished.sorts (h : d.Finished order) (hnone : d.belated? [] order = none) :
    d.Sorts order := by
  refine ⟨h.perm, fun before n after hsplit m hedge => ?_⟩
  rcases mem_of_belated?_eq_none hnone hsplit hedge with hplaced | hbefore | rfl
  · exact absurd hplaced List.not_mem_nil
  · exact hbefore
  · exact absurd hedge (h.plain m)

/-- The search was done with a node before one that it has an edge to only if the edge closes a
cycle. -/
theorem Finished.cycle (h : d.Finished order) (hsome : d.belated? [] order = some m) :
    Relation.TransGen d.HasEdge m m := by
  obtain ⟨before, n, after, rfl, hedge, -, hbefore, hother⟩ := exists_edge_of_belated?_eq_some hsome
  have hnodup : (before ++ n :: after).Nodup := h.perm.nodup_iff.2 d.nodup
  have hm : m ∈ after := by
    have hmem := h.perm.mem_iff.2 (d.inside _ hedge).1
    simpa [hbefore, hother] using hmem
  obtain ⟨front, back, rfl⟩ := List.append_of_mem hm
  rcases h.turned (before ++ n :: front) m back (by simp) n hedge with hn | hpath
  · simp [List.nodup_append, hn] at hnodup
  · exact .head' hedge hpath

/-- What sorting by a search depth first comes to. -/
theorem toposort_outcome (d : Digraph) :
    (∃ order, DigraphLibrary.depthFirst.toposort d = .ok order ∧ d.Sorts order) ∨
      ∃ n, DigraphLibrary.depthFirst.toposort d = .error n ∧ Relation.TransGen d.HasEdge n n := by
  unfold DigraphLibrary.depthFirst
  dsimp only
  rcases (searching_initial (d := d)).outcome with ⟨order, hfinish, hdone⟩ | ⟨n, hfinish, hself⟩
  · rw [hfinish]
    dsimp only [bind, Except.bind]
    cases hbelated : d.belated? [] order with
    | none => exact .inl ⟨order, rfl, hdone.sorts hbelated⟩
    | some n => exact .inr ⟨n, rfl, hdone.cycle hbelated⟩
  · rw [hfinish]
    exact .inr ⟨n, rfl, .single hself⟩

end Digraph

/-- The search depth first sorts the graphs without cycles, names a node on a cycle in others and
finds the paths. -/
theorem DigraphLibrary.depthFirst_lawful : DigraphLibrary.depthFirst.Lawful where
  toposort_ok {d order} hok := by
    rcases d.toposort_outcome with ⟨order', hsorted, hsorts⟩ | ⟨n, hcyclic, -⟩
    · cases hok.symm.trans hsorted
      exact hsorts
    · cases hok.symm.trans hcyclic
  toposort_error {d n} herror := by
    rcases d.toposort_outcome with ⟨order, hsorted, -⟩ | ⟨n', hcyclic, hcycle⟩
    · cases herror.symm.trans hsorted
    · cases herror.symm.trans hcyclic
      exact hcycle
  hasPath_iff {d source target} _ := decide_eq_true_iff.trans Digraph.mem_reached_iff

end ColumnFlow
