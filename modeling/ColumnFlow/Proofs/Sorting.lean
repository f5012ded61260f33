import Mathlib.Data.List.Find
import ColumnFlow.Proofs.Cycles

/-!
# Orders, cycles and offending references

The search for an order either finds one, in which every task has its turn, or names an edge that
lies on a cycle. Validation looks at the references first, task by task in the order in which the
tasks were added and reference by reference in the order in which they are written, and reports the
first one that does not do.
-/

namespace ColumnFlow

/-! ## References -/

/-- An argument refers to a task, itself or in a tuple at any depth. -/
inductive Arg.Refers (d : String) : Arg → Prop where
  | ref : Refers d (.ref d)
  | item {a : Arg} {items : List Arg} : a ∈ items → Refers d a → Refers d (.tuple items)

mutual

theorem Arg.mem_refs_iff {d : String} : (a : Arg) → (d ∈ a.refs ↔ a.Refers d)
  | .ref task => by
    rw [Arg.refs, List.mem_singleton]
    constructor
    · rintro rfl
      exact .ref
    · rintro ⟨⟩
      rfl
  | .tuple items => by
    rw [Arg.refs, Arg.mem_refsAll_iff items]
    constructor
    · rintro ⟨a, hmem, hrefers⟩
      exact .item hmem hrefers
    · rintro (_ | ⟨hmem, hrefers⟩)
      exact ⟨_, hmem, hrefers⟩
  | .column _ | .literal _ | .absent => iff_of_false List.not_mem_nil nofun

theorem Arg.mem_refsAll_iff {d : String} :
    (as : List Arg) → (d ∈ Arg.refsAll as ↔ ∃ a ∈ as, a.Refers d)
  | [] => iff_of_false List.not_mem_nil fun ⟨_, hmem, _⟩ => List.not_mem_nil hmem
  | a :: as => by
    rw [Arg.refsAll, List.mem_append, Arg.mem_refs_iff a, Arg.mem_refsAll_iff as]
    simp only [List.mem_cons, exists_eq_or_imp]

end

/-- Leaving out elements that give nothing does not change the first result. -/
theorem findSome?_filter {α β : Type} {f : α → Option β} {p : α → Bool} {l : List α}
    (hnothing : ∀ a ∈ l, p a = false → f a = none) : (l.filter p).findSome? f = l.findSome? f := by
  induction l with
  | nil => rfl
  | cons a as ih =>
    rw [List.forall_mem_cons] at hnothing
    have hrest := ih hnothing.2
    cases hkeep : p a with
    | true => rw [List.filter_cons_of_pos hkeep, List.findSome?_cons, List.findSome?_cons, hrest]
    | false =>
      rw [List.filter_cons_of_neg (by simp [hkeep]), List.findSome?_cons, hnothing.1 hkeep, hrest]

theorem findSome?_eraseDups {β : Type} {f : String → Option β} (l : List String) :
    l.eraseDups.findSome? f = l.findSome? f := by
  match l with
  | [] => rfl
  | a :: as =>
    rw [List.eraseDups_cons, List.findSome?_cons, List.findSome?_cons]
    cases hresult : f a with
    | some b => rfl
    | none =>
      dsimp only
      rw [findSome?_eraseDups (as.filter _), findSome?_filter]
      intro b _ hsame
      have hsame : b = a := by simpa using hsame
      rw [hsame, hresult]
termination_by l.length
decreasing_by exact Nat.lt_succ_of_le (List.length_filter_le _ _)

/-- The dependencies of a task give the same first result as its references in full. -/
theorem Task.findSome?_dependencies {β : Type} {f : String → Option β} (t : Task) :
    t.dependencies.findSome? f = (t.refs ++ t.after).findSome? f := by
  rw [Task.dependencies, List.findSome?_append, List.findSome?_append, findSome?_eraseDups]
  cases hfirst : t.refs.findSome? f with
  | some b => rfl
  | none =>
    rw [findSome?_filter]
    intro d _ hold
    have hold : d ∈ t.refs := by simpa using hold
    exact List.findSome?_eq_none_iff.1 hfirst d hold

namespace Graph

variable {g : Graph} {n d : String} {t : Task} {e : GraphError}

/-! ## The first offence -/

/-- A reference of a task that makes the graph invalid, with the error that reports it. -/
inductive Offence (g : Graph) (n : String) : String → GraphError → Prop where
  | itself : g.Offence n n (.selfReference n)
  | missing {d : String} : d ≠ n → d ∉ g.names → g.Offence n d (.danglingReference n d)

/-- The error that reports a reference, if it offends. -/
def offence? (g : Graph) (n d : String) : Option GraphError :=
  if d = n then some (.selfReference n)
  else if g.contains d then none
  else some (.danglingReference n d)

theorem offence?_eq_some_iff : g.offence? n d = some e ↔ g.Offence n d e := by
  unfold offence?
  constructor
  · intro hoffends
    split at hoffends
    · next hsame =>
      cases hoffends
      rw [hsame]
      exact .itself
    · next hother =>
      split at hoffends
      · cases hoffends
      · next hmissing =>
        cases hoffends
        exact .missing hother fun hknown => hmissing (contains_iff.2 hknown)
  · rintro (_ | ⟨hother, hmissing⟩)
    · exact if_pos rfl
    · rw [if_neg hother, if_neg fun hknown => hmissing (contains_iff.1 hknown)]

theorem offence?_eq_none_iff : g.offence? n d = none ↔ d ≠ n ∧ d ∈ g.names := by
  unfold offence?
  by_cases hsame : d = n
  · simp [hsame]
  · simp [hsame, contains_iff]

theorem badReference?_eq : g.badReference? n t = (t.refs ++ t.after).findSome? (g.offence? n) :=
  t.findSome?_dependencies

/-- The references of a task are to other tasks of the graph. -/
def Proper (g : Graph) (n : String) (t : Task) : Prop :=
  ∀ d ∈ t.refs ++ t.after, d ≠ n ∧ d ∈ g.names

theorem proper_iff : g.Proper n t ↔ g.badReference? n t = none := by
  rw [badReference?_eq_none_iff]
  simp only [Proper, Task.mem_dependencies_iff, List.mem_append]

/-- Among all tasks in insertion order, the first that has an offending reference, with the first
of these, and the error that reports it. -/
structure FirstOffence (g : Graph) (e : GraphError) : Prop where
  exists_first : ∃ before n t after, g.tasks.entries = before ++ (n, t) :: after ∧
    (∀ earlier ∈ before, g.Proper earlier.1 earlier.2) ∧
    ∃ front d back, t.refs ++ t.after = front ++ d :: back ∧
      (∀ c ∈ front, c ≠ n ∧ c ∈ g.names) ∧ g.Offence n d e

theorem firstOffence_iff :
    (g.tasks.entries.findSome? fun e => g.badReference? e.1 e.2) = some e ↔ g.FirstOffence e := by
  rw [List.findSome?_eq_some_iff]
  constructor
  · rintro ⟨before, ⟨n, t⟩, after, hsplit, hoffends, hproper⟩
    rw [badReference?_eq, List.findSome?_eq_some_iff] at hoffends
    obtain ⟨front, d, back, hsplit', hoffends, hfine⟩ := hoffends
    exact ⟨before, n, t, after, hsplit, fun m hmem => proper_iff.2 (hproper m hmem), front, d, back,
      hsplit', fun c hmem => offence?_eq_none_iff.1 (hfine c hmem), offence?_eq_some_iff.1 hoffends⟩
  · rintro ⟨before, n, t, after, hsplit, hproper, front, d, back, hsplit', hfine, hoffends⟩
    refine ⟨before, (n, t), after, hsplit, ?_, fun m hmem => proper_iff.1 (hproper m hmem)⟩
    rw [badReference?_eq, List.findSome?_eq_some_iff]
    exact ⟨front, d, back, hsplit', offence?_eq_some_iff.2 hoffends,
      fun c hmem => offence?_eq_none_iff.2 (hfine c hmem)⟩

/-! ## Edges on a cycle -/

variable {library : DigraphLibrary}

/-- For a task on a cycle an edge to it is reported from whose start there is a way back. -/
theorem cycleThrough_spec (hlawful : library.Lawful) (hcycle : Relation.TransGen g.Edge n n) :
    ∃ dependency, g.cycleThrough library n = .cycle n dependency ∧ g.Edge dependency n ∧
      Relation.ReflTransGen g.Edge n dependency := by
  obtain ⟨m, hpath, hback⟩ := Relation.TransGen.tail'_iff.1 hcycle
  have hnode : n ∈ g.dag.nodes := g.nodes_dag ▸ hback.target
  have hleads (d : String) :
      library.hasPath g.dag n d = true ↔ Relation.ReflTransGen g.Edge n d := by
    rw [← hasEdge_dag]
    exact hlawful.hasPath_iff hnode
  unfold cycleThrough
  cases hfind : (g.dependenciesOf n).find? fun d => library.hasPath g.dag n d with
  | none => exact absurd ((hleads m).2 hpath) (List.find?_eq_none.1 hfind m hback.waits)
  | some d =>
    have hwaits : d ∈ g.dependenciesOf n := List.mem_of_find?_eq_some hfind
    have hpath' : Relation.ReflTransGen g.Edge n d :=
      (hleads d).1 (List.find?_some (p := fun d => library.hasPath g.dag n d) hfind)
    have hsource : d ∈ g.names := by
      rcases hpath'.cases_tail with rfl | ⟨k, -, hedge⟩
      · exact hback.target
      · exact hedge.target
    exact ⟨d, rfl, ⟨hsource, hback.target, hwaits⟩, hpath'⟩

/-! ## Validation -/

/-- The search for an order fails exactly if there is a cycle. -/
theorem topologicalOrder_outcome (hlawful : library.Lawful) (g : Graph) :
    (g.Acyclic ∧ ∃ order, g.topologicalOrder library = .ok order ∧ g.Sorts order) ∨
    ¬ g.Acyclic ∧ ∃ task dependency, g.topologicalOrder library = .error (.cycle task dependency) ∧
      g.Edge dependency task ∧ Relation.ReflTransGen g.Edge task dependency := by
  cases hsorted : library.toposort g.dag with
  | ok order =>
    have hfound : g.topologicalOrder library = .ok order := mapError_eq_ok_iff.2 hsorted
    have hsorts := topologicalOrder_sorts hlawful hfound
    exact .inl ⟨hsorts.acyclic, order, hfound, hsorts⟩
  | error n =>
    have hcycle := hlawful.toposort_error hsorted
    rw [hasEdge_dag] at hcycle
    obtain ⟨dependency, hreported, hedge, hback⟩ := cycleThrough_spec hlawful hcycle
    refine .inr ⟨fun hacyclic => acyclic_iff.1 hacyclic n hcycle, n, dependency, ?_, hedge, hback⟩
    rw [topologicalOrder, hsorted]
    exact congrArg Except.error hreported

/-- Validation reports the first offending reference, and a cycle only if there is none. -/
theorem validate_eq_error_iff : g.validate library = .error e ↔
    g.FirstOffence e ∨ (∀ e', ¬ g.FirstOffence e') ∧ g.topologicalOrder library = .error e := by
  simp only [← firstOffence_iff]
  unfold validate
  cases g.tasks.entries.findSome? fun e => g.badReference? e.1 e.2 with
  | some offence => simp
  | none =>
    cases g.topologicalOrder library with
    | ok order => simp [Except.map]
    | error cycle => simp [Except.map]

/-- Let a library sort graphs and find paths as it is documented to. Then the search for an order of
the tasks succeeds exactly if the edges of the graph form no cycle, and then lists every task once,
each after its dependencies in the graph; else it names an edge on a cycle. Validation succeeds
exactly if every reference, at any depth of an argument or one that only orders, is to another task
of the graph and there is no cycle. It fails with the first offending reference of the first task
that has one, and with a cycle only if no reference offends. -/
theorem validate_decides_acyclicity {library : DigraphLibrary} (hlawful : library.Lawful)
    (g : Graph) :
    ((∃ order, g.topologicalOrder library = .ok order) ↔ ∀ n, ¬ Relation.TransGen g.Edge n n) ∧
    (∀ order, g.topologicalOrder library = .ok order → g.Sorts order) ∧
    (∀ e, g.topologicalOrder library = .error e → ∃ task dependency, e = .cycle task dependency ∧
      g.Edge dependency task ∧ Relation.ReflTransGen g.Edge task dependency) ∧
    (g.validate library = .ok () ↔
      (∀ n t, g.get? n = some t → ∀ d, (∃ a ∈ t.args, a.Refers d) ∨ d ∈ t.after →
        d ≠ n ∧ d ∈ g.names) ∧
      ∀ n, ¬ Relation.TransGen g.Edge n n) ∧
    (∀ e, g.validate library = .error e ↔ g.FirstOffence e ∨
      (∀ e', ¬ g.FirstOffence e') ∧ g.topologicalOrder library = .error e) := by
  -- The library says whether the order exists; references are checked by themselves, before it is
  -- asked.
  rw [← acyclic_iff]
  have houtcome := topologicalOrder_outcome hlawful g
  refine ⟨?_, fun order => topologicalOrder_sorts hlawful, ?_, ?_, fun e => validate_eq_error_iff⟩
  · rcases houtcome with ⟨hacyclic, order, hfound, -⟩ | ⟨hcyclic, task, dependency, hfails, -⟩
    · exact iff_of_true ⟨order, hfound⟩ hacyclic
    · rw [hfails]
      exact iff_of_false nofun hcyclic
  · intro e hfailed
    rcases houtcome with ⟨-, order, hfound, -⟩ | ⟨-, task, dependency, hfails, hedge, hback⟩
    · cases hfailed.symm.trans hfound
    · cases hfailed.symm.trans hfails
      exact ⟨task, dependency, rfl, hedge, hback⟩
  · rw [validate_eq_ok_iff hlawful, and_comm]
    refine and_congr_left fun hacyclic => ?_
    simp only [← Arg.mem_refsAll_iff]
    constructor
    · intro hresolves n t htask d hrefers
      have hedge : d ∈ g.dependenciesOf n :=
        mem_dependenciesOf_iff.2 ⟨t, htask, Task.mem_dependencies_iff.2 hrefers⟩
      refine ⟨?_, hresolves n (mem_names_of_get? htask) d hedge⟩
      rintro rfl
      exact hacyclic d (.direct hedge)
    · intro hproper n _ d hedge
      obtain ⟨t, htask, hneed⟩ := mem_dependenciesOf_iff.1 hedge
      exact (hproper n t htask d (Task.mem_dependencies_iff.1 hneed)).2

/-- A graph that has an order although a reference is missing, which validation reports; and one
with a cycle whose last task refers to itself, which validation reports before the cycle. -/
theorem validate_decides_acyclicity_nested :
    let g : Graph := ⟨.ofList [("a", .constant (.bool true)),
      ("b", ⟨.eval "x", [.tuple [.absent, .tuple [.ref "a", .ref "a"]]], ["a", "z"]⟩)],
      some "a", some "b"⟩
    let h : Graph := ⟨.ofList [("u", ⟨.eval "x", [], ["v"]⟩), ("v", .of (.eval "x") [.ref "u"]),
      ("s", .of (.eval "x") [.ref "u", .tuple [.ref "s"]])], some "u", some "s"⟩
    (∃ order, g.topologicalOrder = .ok order ∧ g.Sorts order) ∧
      g.validate = .error (.danglingReference "b" "z") ∧
      (∃ task dependency, h.topologicalOrder = .error (.cycle task dependency)) ∧
      h.validate = .error (.selfReference "s") := by
  intro g h
  have hproper {n : String} {t : Task} (hall : ∀ d ∈ t.refs ++ t.after, d ≠ n ∧ d ∈ h.names) :
      h.Proper n t := hall
  have hlawful := DigraphLibrary.depthFirst_lawful
  obtain ⟨haccepts, hsorts, -, -, hreports⟩ := validate_decides_acyclicity hlawful g
  obtain ⟨haccepts', -, hcycles', -, hreports'⟩ := validate_decides_acyclicity hlawful h
  have hacyclic : g.Acyclic := (isOrder_iff.1 (by decide : g.isOrder ["a", "b"] = true)).acyclic
  obtain ⟨order, hfound⟩ := haccepts.2 (acyclic_iff.1 hacyclic)
  have hloop : Relation.TransGen h.Edge "u" "u" :=
    .tail (.single ⟨by decide, by decide, List.mem_cons_self⟩)
      ⟨by decide, by decide, List.mem_cons_self⟩
  refine ⟨⟨order, hfound, hsorts order hfound⟩, ?_, ?_, ?_⟩
  · refine (hreports _).2 (.inl ⟨[_], "b", _, [], rfl, ?_, ["a", "a", "a"], "z", [], rfl, ?_, ?_⟩)
    · exact List.forall_mem_singleton.2 (List.forall_mem_nil _)
    · decide
    · exact .missing (by decide) (by decide)
  · cases hsearched : h.topologicalOrder with
    | ok order => exact absurd hloop (haccepts'.1 ⟨order, hsearched⟩ "u")
    | error e =>
      obtain ⟨task, dependency, rfl, -⟩ := hcycles' e hsearched
      exact ⟨task, dependency, rfl⟩
  · refine (hreports' _).2 (.inl ⟨[_, _], "s", _, [], rfl, ?_, ["u"], "s", [], rfl, ?_, .itself⟩)
    · refine List.forall_mem_cons.2 ⟨hproper (by decide), List.forall_mem_singleton.2 ?_⟩
      exact hproper (by decide)
    · decide

end Graph

end ColumnFlow
