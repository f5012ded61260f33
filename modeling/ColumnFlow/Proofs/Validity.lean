import ColumnFlow.Proofs.Digraphs
import ColumnFlow.Proofs.Search

/-!
# Valid graphs

A graph is valid if no task depends on itself, directly or through others, and every reference
names a task of the graph. A library of graph algorithms finds an order of the tasks exactly if there
is no cycle, whether references resolve or not, and a graph that was built in legal order is valid.
-/

namespace ColumnFlow.Graph

variable {g : Graph}

/-- Every reference of a task names a task of the graph. -/
def Resolves (g : Graph) : Prop := ∀ n ∈ g.names, ∀ d ∈ g.dependenciesOf n, d ∈ g.names

theorem Resolves.mem_of_needed (hresolves : g.Resolves) {targets : List String}
    (hknown : ∀ t ∈ targets, t ∈ g.names) {n : String} (hneeded : g.Needed targets n) :
    n ∈ g.names :=
  hneeded.of_passes hresolves hknown

theorem badReference?_eq_none_iff {n : String} {t : Task} :
    g.badReference? n t = none ↔ ∀ d ∈ t.dependencies, d ≠ n ∧ d ∈ g.names := by
  unfold badReference? contains
  rw [List.findSome?_eq_none_iff]
  refine forall₂_congr fun d _ => ?_
  by_cases hitself : d = n
  · simp [hitself]
  · simp [hitself, Table.contains_iff, names]

/-! ## Orders -/

/-- A task waits for another, and both are in the graph. -/
structure Edge (g : Graph) (d n : String) : Prop where
  source : d ∈ g.names
  target : n ∈ g.names
  waits : d ∈ g.dependenciesOf n

theorem Before.path {a b : String} (h : g.Before a b) (hknown : a ∈ g.names) :
    Relation.TransGen g.Edge a b := by
  induction h with
  | direct hedge => exact .single ⟨hknown, (Before.direct hedge).mem_names, hedge⟩
  | through hbefore hedge ih =>
    exact ih.tail ⟨hbefore.mem_names, (Before.direct hedge).mem_names, hedge⟩

theorem before_of_path {a b : String} (hpath : Relation.TransGen g.Edge a b) : g.Before a b := by
  induction hpath with
  | single hedge => exact .direct hedge.waits
  | tail _ hedge ih => exact .through ih hedge.waits

/-- A graph has no cycle exactly if its edges form none. -/
theorem acyclic_iff : g.Acyclic ↔ ∀ n, ¬ Relation.TransGen g.Edge n n :=
  ⟨fun hacyclic n hcycle => hacyclic n (before_of_path hcycle),
    fun hacyclic n hcycle => hacyclic n (hcycle.path hcycle.mem_names)⟩

/-- Each task stands after those of its dependencies that are in the graph. -/
def InTurn (g : Graph) (order : List String) : Prop :=
  ∀ before n after, order = before ++ n :: after → ∀ d, g.Edge d n → d ∈ before

/-- The list has every task of the graph once, each in its turn. -/
structure Sorts (g : Graph) (order : List String) : Prop where
  perm : order.Perm g.names
  inTurn : g.InTurn order

theorem isReady_iff {placed : List String} {n : String} (hknown : n ∈ g.names) :
    g.isReady placed n = true ↔ ∀ d, g.Edge d n → d ∈ placed := by
  rw [isReady, List.all_eq_true]
  constructor
  · intro hready d hedge
    have hinner : d ∈ g.innerDependencies n :=
      List.mem_filter.2 ⟨hedge.waits, contains_iff.2 hedge.source⟩
    exact of_decide_eq_true (hready d hinner)
  · intro hready d hinner
    obtain ⟨hwaits, hinside⟩ := List.mem_filter.1 hinner
    exact decide_eq_true (hready d ⟨contains_iff.1 hinside, hknown, hwaits⟩)

theorem readyInTurn_iff {placed order : List String} (hknown : ∀ n ∈ order, n ∈ g.names) :
    g.readyInTurn placed order = true ↔ ∀ before n after, order = before ++ n :: after →
      ∀ d, g.Edge d n → d ∈ placed ∨ d ∈ before := by
  induction order generalizing placed with
  | nil => exact iff_of_true rfl fun before n after hsplit => by simp at hsplit
  | cons n rest ih =>
    rw [List.forall_mem_cons] at hknown
    rw [readyInTurn, Bool.and_eq_true, isReady_iff hknown.1, ih hknown.2]
    constructor
    · rintro ⟨hready, hturns⟩ before m after hsplit d hedge
      cases before with
      | nil =>
        cases hsplit
        exact .inl (hready d hedge)
      | cons b before =>
        cases hsplit
        simpa [or_assoc, or_left_comm] using hturns before m after rfl d hedge
    · intro hturns
      constructor
      · exact fun d hedge => (hturns [] n rest rfl d hedge).resolve_right List.not_mem_nil
      · intro before m after hsplit d hedge
        have hturn := hturns (n :: before) m after (congrArg (n :: ·) hsplit) d hedge
        simpa [or_assoc, or_left_comm] using hturn

/-- Whether a list is an order of the tasks can be computed. -/
theorem isOrder_iff {order : List String} : g.isOrder order = true ↔ g.Sorts order := by
  rw [isOrder, Bool.and_eq_true, List.isPerm_iff]
  constructor
  · rintro ⟨hperm, hready⟩
    have hturns := (readyInTurn_iff fun n hmem => hperm.mem_iff.1 hmem).1 hready
    refine ⟨hperm, fun before n after hsplit d hedge => ?_⟩
    exact (hturns before n after hsplit d hedge).resolve_left List.not_mem_nil
  · rintro ⟨hperm, hturns⟩
    refine ⟨hperm, (readyInTurn_iff fun n hmem => hperm.mem_iff.1 hmem).2 ?_⟩
    exact fun before n after hsplit d hedge => .inr (hturns before n after hsplit d hedge)

/-- A graph of which all tasks can be put in turn has no cycle. -/
theorem Sorts.acyclic {order : List String} (hsorts : g.Sorts order) : g.Acyclic := by
  refine acyclic_iff.2 fun n hcycle => ?_
  have hknown : n ∈ g.names := by
    cases hcycle with
    | single hedge | tail _ hedge => exact hedge.target
  obtain ⟨before, after, hsplit⟩ := List.append_of_mem (hsorts.perm.mem_iff.2 hknown)
  have hfirst {d : String} (hpath : Relation.TransGen g.Edge d n) : d ∈ before := by
    induction hpath using Relation.TransGen.head_induction_on with
    | single hedge => exact hsorts.inTurn before n after hsplit _ hedge
    | head hedge _ ih =>
      obtain ⟨front, back, rfl⟩ := List.append_of_mem ih
      rw [List.append_assoc] at hsplit
      exact List.mem_append_left _ (hsorts.inTurn front _ _ hsplit _ hedge)
  have hnodup : order.Nodup := hsorts.perm.nodup_iff.2 g.tasks.nodup
  rw [hsplit] at hnodup
  exact (List.nodup_append.1 hnodup).2.2 n (hfirst hcycle) n List.mem_cons_self rfl

/-! ## The graph of the tasks -/

theorem mem_innerEdges_iff {d n : String} : (d, n) ∈ g.innerEdges ↔ g.Edge d n := by
  unfold innerEdges innerDependencies
  simp only [List.mem_flatMap, List.mem_map, List.mem_filter, contains_iff, Prod.mk.injEq]
  constructor
  · rintro ⟨m, htarget, d, ⟨hwaits, hsource⟩, rfl, rfl⟩
    exact ⟨hsource, htarget, hwaits⟩
  · rintro ⟨hsource, htarget, hwaits⟩
    exact ⟨n, htarget, d, ⟨hwaits, hsource⟩, rfl, rfl⟩

/-- What the tasks are and what they wait for is all that the directed graph has. -/
theorem nodes_dag_and_edges (g : Graph) :
    g.dag.nodes = g.names ∧ g.dag.HasEdge = g.Edge := by
  have hnodes : (g.names.foldl Digraph.addNode .empty).nodes = g.names :=
    Digraph.nodes_foldl_addNode (d := .empty) g.tasks.nodup
  have hknown : ∀ e ∈ g.innerEdges, e.1 ∈ (g.names.foldl Digraph.addNode .empty).nodes ∧
      e.2 ∈ (g.names.foldl Digraph.addNode .empty).nodes := by
    rw [hnodes]
    exact fun e he => ⟨(mem_innerEdges_iff.1 he).source, (mem_innerEdges_iff.1 he).target⟩
  obtain ⟨hnodes', hedges⟩ := Digraph.foldl_addEdge hknown
  refine ⟨hnodes'.trans hnodes, ?_⟩
  ext d n
  refine (hedges (d, n)).trans ?_
  rw [Digraph.edges_foldl_addNode, ← mem_innerEdges_iff]
  exact or_iff_right List.not_mem_nil

/-- The nodes are the tasks in insertion order. -/
theorem nodes_dag (g : Graph) : g.dag.nodes = g.names := g.nodes_dag_and_edges.1

/-- The edges are those from the dependencies in the graph. -/
theorem hasEdge_dag (g : Graph) : g.dag.HasEdge = g.Edge := g.nodes_dag_and_edges.2

/-- What sorts the directed graph sorts the tasks. -/
theorem sorts_of_dag {order : List String} (hsorts : g.dag.Sorts order) : g.Sorts order := by
  obtain ⟨hperm, hturn⟩ := hsorts
  rw [nodes_dag] at hperm
  rw [hasEdge_dag] at hturn
  exact ⟨hperm, hturn⟩

variable {library : DigraphLibrary}

/-- The order that is found has every task in its turn. -/
theorem topologicalOrder_sorts (hlawful : library.Lawful) {order : List String}
    (hfound : g.topologicalOrder library = .ok order) : g.Sorts order :=
  sorts_of_dag (hlawful.toposort_ok (mapError_eq_ok_iff.1 hfound))

/-- A graph without cycles has an order. -/
theorem topologicalOrder_ok (hlawful : library.Lawful) (hacyclic : g.Acyclic) :
    ∃ order, g.topologicalOrder library = .ok order := by
  unfold topologicalOrder
  cases hsorted : library.toposort g.dag with
  | ok order => exact ⟨order, rfl⟩
  | error n =>
    have hcycle := hlawful.toposort_error hsorted
    rw [hasEdge_dag] at hcycle
    exact absurd hcycle (acyclic_iff.1 hacyclic n)

/-! ## Validation -/

/-- Validation accepts the graphs without cycles in which every reference resolves. -/
theorem validate_eq_ok_iff (hlawful : library.Lawful) :
    g.validate library = .ok () ↔ g.Acyclic ∧ g.Resolves := by
  have hreferences : (g.tasks.entries.findSome? fun e => g.badReference? e.1 e.2) = none ↔
      ∀ n t, g.get? n = some t → ∀ d ∈ t.dependencies, d ≠ n ∧ d ∈ g.names := by
    rw [List.findSome?_eq_none_iff]
    constructor
    · intro hall n t htask
      exact badReference?_eq_none_iff.1 (hall (n, t) ((Table.get?_eq_some_iff _ _ _).1 htask))
    · intro hall e hmem
      exact badReference?_eq_none_iff.2 (hall e.1 e.2 ((Table.get?_eq_some_iff _ _ _).2 hmem))
  have hresolves_of (hall : ∀ n t, g.get? n = some t → ∀ d ∈ t.dependencies, d ≠ n ∧ d ∈ g.names) :
      g.Resolves := by
    intro n _ d hedge
    obtain ⟨t, htask, hneed⟩ := mem_dependenciesOf_iff.1 hedge
    exact (hall n t htask d hneed).2
  unfold validate
  constructor
  · intro hvalid
    split at hvalid
    · cases hvalid
    · next hnone =>
      have hresolves := hresolves_of (hreferences.1 hnone)
      obtain ⟨order, hfound, -⟩ := map_eq_ok_iff.1 hvalid
      exact ⟨(topologicalOrder_sorts hlawful hfound).acyclic, hresolves⟩
  · rintro ⟨hacyclic, hresolves⟩
    rw [hreferences.2 ?_]
    · obtain ⟨order, hfound⟩ := topologicalOrder_ok hlawful hacyclic
      exact map_eq_ok_iff.2 ⟨order, hfound, rfl⟩
    · intro n t htask d hneed
      have hedge : d ∈ g.dependenciesOf n := mem_dependenciesOf_iff.2 ⟨t, htask, hneed⟩
      refine ⟨?_, hresolves n (mem_names_iff.2 ⟨t, htask⟩) d hedge⟩
      rintro rfl
      exact hacyclic d (.direct hedge)

/-- A graph whose tasks were added after everything they depend on is valid. -/
theorem Legal.validate_eq_ok (hlegal : g.Legal g.names) : g.validate = .ok () := by
  refine (validate_eq_ok_iff DigraphLibrary.depthFirst_lawful).2 ⟨hlegal.acyclic,
    fun n hmem d hedge => ?_⟩
  exact hlegal.mem_of_mem hmem (.direct hedge)

end ColumnFlow.Graph
