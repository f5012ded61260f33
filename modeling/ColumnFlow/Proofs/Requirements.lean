import Mathlib.Logic.Function.Iterate
import ColumnFlow.Proofs.Search

/-!
# What a task needs

The walk from a task through its dependencies takes its steps off a stack. A task may be on the
stack several times before it is entered; it is entered once, and it is left when everything above
it has been taken off. So the tasks that are still to be left form a chain in which the ones
further down depend on the ones above, and when a task is left all its dependencies have been
entered: they are listed already, unless one of them is part of that chain, which is a cycle.
-/

namespace ColumnFlow.Graph

variable {g : Graph} {todo rest : List Step} {seen done listed ready ready' : List String}
variable {root name parent : String}

/-! ## The stack -/

/-- The task that a step enters or leaves. -/
def Step.task : Step → String
  | .enter name _ | .leave name => name

/-- The task that a step leaves. -/
def Step.left? : Step → Option String
  | .enter _ _ => none
  | .leave name => some name

/-- When a task is left all its dependencies have been entered, if those in `ready` were before. -/
def Covered (g : Graph) (ready : List String) : List Step → Prop
  | [] => True
  | .enter name _ :: rest => g.Covered (name :: ready) rest
  | .leave name :: rest => (∀ d ∈ g.dependenciesOf name, d ∈ ready) ∧ g.Covered ready rest

theorem Covered.mono (hcovered : g.Covered ready todo) (hmore : ready ⊆ ready') :
    g.Covered ready' todo := by
  induction todo generalizing ready ready' with
  | nil => trivial
  | cons step rest ih =>
    cases step with
    | enter name parent => exact ih hcovered (List.cons_subset_cons name hmore)
    | leave name => exact ⟨fun d hedge => hmore (hcovered.1 d hedge), ih hcovered.2 hmore⟩

/-- The dependencies of a task have been entered when what follows them is reached. -/
theorem covered_enter (dependencies : List String)
    (hcovered : g.Covered (dependencies ++ ready) rest) :
    g.Covered ready (dependencies.map (.enter · name) ++ rest) := by
  induction dependencies generalizing ready with
  | nil => exact hcovered
  | cons d ds ih => exact ih (hcovered.mono List.perm_middle.symm.subset)

/-- The tasks that are left later depend on those of the steps in front. -/
def Chained (g : Graph) (todo : List Step) : Prop :=
  todo.Pairwise fun step later => ∀ n, later.left? = some n → g.Before step.task n

theorem chained_leave (hchained : g.Chained (.enter name parent :: rest)) :
    g.Chained (.leave name :: rest) :=
  List.pairwise_cons.2 (List.pairwise_cons.1 hchained)

/-- The dependencies of a task can be entered before it is left. -/
theorem chained_enter (hchained : g.Chained (.leave name :: rest)) :
    g.Chained ((g.dependenciesOf name).map (.enter · name) ++ .leave name :: rest) := by
  have hbelow := (List.pairwise_cons.1 hchained).1
  refine List.pairwise_append.2 ⟨?_, hchained, ?_⟩
  · exact List.pairwise_map.2 (List.pairwise_of_forall fun _ _ _ hleft => nomatch hleft)
  · intro step hmem later hinside n hleft
    obtain ⟨d, hedge, rfl⟩ := List.mem_map.1 hmem
    rcases List.mem_cons.1 hinside with rfl | hinside
    · cases hleft
      exact .direct hedge
    · exact (Before.direct hedge).trans (hbelow later hinside n hleft)

theorem filterMap_left?_enter (dependencies : List String) :
    (dependencies.map (Step.enter · name)).filterMap Step.left? = [] := by
  simp [List.filterMap_map, Function.comp_def, Step.left?]

/-! ## The middle of a walk -/

/-- What is known in the middle of a walk from a task of the graph. -/
structure Walking (g : Graph) (root : String) (todo : List Step) (seen done : List String) :
    Prop where
  /-- Every entrance comes from a reference of a needed task. -/
  coming : ∀ n p, Step.enter n p ∈ todo → g.Needed [root] p ∧ n ∈ g.dependenciesOf p
  entered : ∀ n ∈ seen, g.Needed [root] n ∧ n ∈ g.names
  /-- An entered task is listed or still to be left. -/
  once : (done ++ todo.filterMap Step.left?).Perm seen
  nodup : seen.Nodup
  closed : ∀ n ∈ done, ∀ d ∈ g.dependenciesOf n, d ∈ seen
  covered : g.Covered seen todo
  chained : g.Chained todo
  /-- The walk ends with leaving the task it is from. -/
  last : todo.getLast? = some (.leave root) ∨ todo = [] ∧ done.head? = some root
  legal : (∀ n, g.Needed [root] n → ¬ g.Before n n) → g.Legal done.reverse

/-- A task is listed when it is left. -/
theorem Walking.leave (hwalking : g.Walking root (.leave name :: rest) seen done) :
    g.Walking root rest seen (name :: done) := by
  have hentered : name ∈ seen := hwalking.once.subset (by simp [Step.left?])
  have honce : (name :: done ++ rest.filterMap Step.left?).Perm seen :=
    List.perm_middle.symm.trans hwalking.once
  constructor
  case coming => exact fun n p hmem => hwalking.coming n p (List.mem_cons_of_mem _ hmem)
  case entered => exact hwalking.entered
  case once => exact honce
  case nodup => exact hwalking.nodup
  case closed => exact List.forall_mem_cons.2 ⟨hwalking.covered.1, hwalking.closed⟩
  case covered => exact hwalking.covered.2
  case chained => exact (List.pairwise_cons.1 hwalking.chained).2
  case last =>
    have hlast := hwalking.last.resolve_right (fun hempty => nomatch hempty.1)
    cases rest with
    | nil =>
      cases hlast
      exact .inr ⟨rfl, rfl⟩
    | cons step rest => exact .inl (by simpa [List.getLast?_cons] using hlast)
  case legal =>
    intro hacyclic
    obtain ⟨t, htask⟩ := mem_names_iff.1 (hwalking.entered name hentered).2
    have hfresh : name ∉ done := by
      have hnodup := honce.nodup_iff.2 hwalking.nodup
      exact fun hold => (List.nodup_cons.1 hnodup).1 (List.mem_append_left _ hold)
    rw [List.reverse_cons]
    refine legal_snoc.2
      ⟨hwalking.legal hacyclic, by simpa using hfresh, t, htask, fun d hneed => ?_⟩
    have hedge : d ∈ g.dependenciesOf name := dependenciesOf_eq htask ▸ hneed
    have hseen : d ∈ name :: done ++ rest.filterMap Step.left? :=
      honce.symm.subset (hwalking.covered.1 d hedge)
    -- a dependency that is not listed yet would be the task itself or depend on it
    have hcycle : d = name ∨ g.Before name d → False := by
      have hneeded := (hwalking.entered d (hwalking.covered.1 d hedge)).1
      rintro (rfl | hback)
      · exact hacyclic d hneeded (.direct hedge)
      · exact hacyclic d hneeded ((Before.direct hedge).trans hback)
    rcases List.mem_append.1 hseen with hlisted | hlater
    · rcases List.mem_cons.1 hlisted with hsame | hlisted
      · exact (hcycle (.inl hsame)).elim
      · exact List.mem_reverse.2 hlisted
    · obtain ⟨step, hinside, hleft⟩ := List.mem_filterMap.1 hlater
      exact (hcycle (.inr ((List.pairwise_cons.1 hwalking.chained).1 step hinside d hleft))).elim

theorem Walking.rest_ne_nil (hwalking : g.Walking root (.enter name parent :: rest) seen done) :
    rest.getLast? = some (.leave root) := by
  have hlast := hwalking.last.resolve_right (fun hempty => nomatch hempty.1)
  cases rest with
  | nil => cases hlast
  | cons step rest => simpa [List.getLast?_cons] using hlast

/-- A task that has been entered is not entered again. -/
theorem Walking.skip (hwalking : g.Walking root (.enter name parent :: rest) seen done)
    (hold : name ∈ seen) : g.Walking root rest seen done where
  coming n p hmem := hwalking.coming n p (List.mem_cons_of_mem _ hmem)
  entered := hwalking.entered
  once := hwalking.once
  nodup := hwalking.nodup
  closed := hwalking.closed
  covered := Covered.mono hwalking.covered (List.cons_subset.2 ⟨hold, List.Subset.refl seen⟩)
  chained := (List.pairwise_cons.1 hwalking.chained).2
  last := .inl hwalking.rest_ne_nil
  legal := hwalking.legal

/-- A task is entered with its dependencies to come. -/
theorem Walking.enter (hwalking : g.Walking root (.enter name parent :: rest) seen done)
    (hnew : name ∉ seen) (hknown : name ∈ g.names) :
    g.Walking root ((g.dependenciesOf name).map (.enter · name) ++ .leave name :: rest)
      (name :: seen) done := by
  obtain ⟨hneeded, hedge⟩ := hwalking.coming name parent List.mem_cons_self
  have hown : g.Needed [root] name := hneeded.dependency hedge
  constructor
  case coming =>
    intro n p hmem
    rcases List.mem_append.1 hmem with hdependency | hlater
    · obtain ⟨d, hedge, heq⟩ := List.mem_map.1 hdependency
      cases heq
      exact ⟨hown, hedge⟩
    · have hlater : Step.enter n p ∈ rest := by simpa using hlater
      exact hwalking.coming n p (List.mem_cons_of_mem _ hlater)
  case entered => exact List.forall_mem_cons.2 ⟨⟨hown, hknown⟩, hwalking.entered⟩
  case once =>
    rw [List.filterMap_append, filterMap_left?_enter]
    exact List.perm_middle.trans (hwalking.once.cons name)
  case nodup => exact List.nodup_cons.2 ⟨hnew, hwalking.nodup⟩
  case closed => exact fun n hmem d hedge => List.mem_cons_of_mem _ (hwalking.closed n hmem d hedge)
  case covered =>
    refine covered_enter _ ⟨fun d hedge => List.mem_append_left _ hedge, ?_⟩
    exact Covered.mono hwalking.covered (List.subset_append_right _ _)
  case chained => exact chained_enter (chained_leave hwalking.chained)
  case last =>
    left
    rw [List.getLast?_append, List.getLast?_cons, hwalking.rest_ne_nil]
    rfl
  case legal => exact hwalking.legal

/-- A walk begins by entering the task it is from. -/
theorem walking_start (hknown : name ∈ g.names) :
    g.Walking name ((g.dependenciesOf name).map (.enter · name) ++ [.leave name]) [name] [] := by
  have hown : g.Needed [name] name := .inl List.mem_cons_self
  constructor
  case coming =>
    intro n p hmem
    obtain ⟨d, hedge, heq⟩ : ∃ d ∈ g.dependenciesOf name, Step.enter d name = .enter n p := by
      simpa using hmem
    cases heq
    exact ⟨hown, hedge⟩
  case entered => exact List.forall_mem_singleton.2 ⟨hown, hknown⟩
  case once =>
    rw [List.filterMap_append, filterMap_left?_enter]
    exact .refl _
  case nodup => exact List.nodup_cons.2 ⟨List.not_mem_nil, List.nodup_nil⟩
  case closed => exact List.forall_mem_nil _
  case covered => exact covered_enter _ ⟨fun d hedge => List.mem_append_left _ hedge, trivial⟩
  case chained => exact chained_enter (List.pairwise_singleton _ _)
  case last =>
    left
    rw [List.getLast?_append]
    rfl
  case legal => exact fun _ => trivial

/-! ## The end of a walk -/

/-- The list has exactly the task and everything that it depends on, each once and the task itself
last, and in legal order if there is no cycle among them. -/
structure ListsNeeded (g : Graph) (root : String) (listed : List String) : Prop where
  mem_iff : ∀ n, n ∈ listed ↔ g.Needed [root] n
  nodup : listed.Nodup
  last : listed.getLast? = some root
  legal : (∀ n ∈ listed, ¬ g.Before n n) → g.Legal listed

/-- A needed task has a reference that is not in the graph. -/
structure Dangles (g : Graph) (root task reference : String) : Prop where
  needed : g.Needed [root] task
  known : task ∈ g.names
  refers : reference ∈ g.dependenciesOf task
  missing : reference ∉ g.names

theorem Walking.listsNeeded (hwalking : g.Walking root [] seen done) :
    g.ListsNeeded root done.reverse := by
  have honce : done.Perm seen := by simpa using hwalking.once
  have hlast : done.head? = some root := (hwalking.last.resolve_left (fun hstep => nomatch hstep)).2
  have hown : root ∈ done := List.mem_of_mem_head? hlast
  have hmem_iff (n : String) : n ∈ done.reverse ↔ g.Needed [root] n := by
    rw [List.mem_reverse]
    refine ⟨fun hmem => (hwalking.entered n (honce.subset hmem)).1, fun hneeded => ?_⟩
    refine hneeded.of_passes (P := (· ∈ done)) (fun m hmem d hedge => ?_)
      (List.forall_mem_singleton.2 hown)
    exact honce.symm.subset (hwalking.closed m hmem d hedge)
  refine ⟨hmem_iff, ?_, ?_, fun hacyclic => ?_⟩
  · exact ((List.reverse_perm done).trans honce).nodup_iff.2 hwalking.nodup
  · rw [List.getLast?_reverse, hlast]
  · exact hwalking.legal fun n hneeded => hacyclic n ((hmem_iff n).2 hneeded)

/-- A walk lists what it is to find or meets a reference that is not in the graph. -/
theorem walk_outcome (hwalking : g.Walking root todo seen done) :
    (∃ listed, g.walk todo seen done = .ok listed ∧ g.ListsNeeded root listed ∧
      ∀ n ∈ listed, n ∈ g.names) ∨
    ∃ task reference, g.walk todo seen done = .error (.danglingReference task reference) ∧
      g.Dangles root task reference := by
  fun_induction g.walk todo seen done with
  | case1 seen done =>
    refine .inl ⟨done.reverse, rfl, hwalking.listsNeeded, fun n hmem => ?_⟩
    have hentered : n ∈ seen := hwalking.once.subset (by simpa using hmem)
    exact (hwalking.entered n hentered).2
  | case2 seen done name rest ih => exact ih hwalking.leave
  | case3 seen done name parent rest hold ih => exact ih (hwalking.skip hold)
  | case4 seen done name parent rest hnew hunknown =>
    obtain ⟨hneeded, hedge⟩ := hwalking.coming name parent List.mem_cons_self
    obtain ⟨t, htask, -⟩ := mem_dependenciesOf_iff.1 hedge
    refine .inr ⟨parent, name, rfl, hneeded, mem_names_of_get? htask, hedge, fun hknown => ?_⟩
    exact (Table.get?_eq_none_iff _ _).1 hunknown hknown
  | case5 seen done name parent rest hnew t hknown ih =>
    have hentered := hwalking.enter hnew (mem_names_of_get? hknown)
    rw [dependenciesOf_eq hknown] at hentered
    exact ih hentered

/-- The search from a task of the graph lists what the task needs or meets a reference that is not
in the graph. -/
theorem requiredFor_outcome (hknown : name ∈ g.names) :
    (∃ listed, g.requiredFor name = .ok listed ∧ g.ListsNeeded name listed ∧
      ∀ n ∈ listed, n ∈ g.names) ∨
    ∃ task reference, g.requiredFor name = .error (.danglingReference task reference) ∧
      g.Dangles name task reference := by
  obtain ⟨t, htask⟩ := mem_names_iff.1 hknown
  have hstart := walking_start hknown
  rw [dependenciesOf_eq htask] at hstart
  have hentered : g.requiredFor name =
      g.walk (t.dependencies.map (.enter · name) ++ [.leave name]) [name] [] := by
    rw [requiredFor, if_pos (contains_iff.2 hknown), walk, if_neg List.not_mem_nil]
    split
    · next hunknown => cases hunknown.symm.trans htask
    · next t' htask' =>
      cases htask'.symm.trans htask
      rfl
  rw [hentered]
  exact walk_outcome hstart

/-- What is listed needs nothing that is missing. -/
theorem ListsNeeded.not_dangles {task reference : String} (hlists : g.ListsNeeded name listed)
    (hinside : ∀ n ∈ listed, n ∈ g.names) : ¬ g.Dangles name task reference := fun hdangles =>
  hdangles.missing (hinside _ ((hlists.mem_iff _).2 (hdangles.needed.dependency hdangles.refers)))

theorem requiredFor_unknown (hunknown : name ∉ g.names) :
    g.requiredFor name = .error (.unknownTask name) := by
  rw [requiredFor, if_neg fun h => hunknown (contains_iff.1 h)]

/-- The search succeeds for the tasks of the graph that need no missing one. -/
theorem exists_requiredFor_iff : (∃ listed, g.requiredFor name = .ok listed) ↔
    name ∈ g.names ∧ ∀ task reference, ¬ g.Dangles name task reference := by
  by_cases hknown : name ∈ g.names
  · rcases requiredFor_outcome hknown with
      ⟨listed, hok, hlists, hinside⟩ | ⟨task, reference, hfails, hdangles⟩
    · exact iff_of_true ⟨listed, hok⟩ ⟨hknown, fun _ _ => hlists.not_dangles hinside⟩
    · rw [hfails]
      exact iff_of_false nofun fun h => h.2 task reference hdangles
  · rw [requiredFor_unknown hknown]
    exact iff_of_false nofun fun h => hknown h.1

/-- The tasks with a property are in the graph, and what they depend on has the property. -/
def Closed (g : Graph) (P : String → Prop) : Prop :=
  ∀ n, P n → n ∈ g.names ∧ ∀ d ∈ g.dependenciesOf n, P d

theorem closed_needed {targets : List String} (hresolves : ∀ n, g.Needed targets n → n ∈ g.names) :
    g.Closed (g.Needed targets) :=
  fun n hneeded => ⟨hresolves n hneeded, fun _ hedge => hneeded.dependency hedge⟩

/-- The search finds what a task needs. -/
theorem requiredFor_ok (hclosed : g.Closed (g.Needed [name])) :
    ∃ listed, g.requiredFor name = .ok listed ∧ ∀ n, n ∈ listed ↔ g.Needed [name] n := by
  have hknown : name ∈ g.names := (hclosed name (.inl List.mem_cons_self)).1
  rcases requiredFor_outcome hknown with ⟨listed, hok, hlists, -⟩ | ⟨task, reference, -, hdangles⟩
  · exact ⟨listed, hok, hlists.mem_iff⟩
  · have hneeded := (hclosed task hdangles.needed).2 reference hdangles.refers
    exact absurd (hclosed reference hneeded).1 hdangles.missing

/-! ## The rounds of a walk -/

/-- One round of the walk, given the steps to take, the tasks that were entered and those that are
listed. -/
def stride (g : Graph) : List Step × List String × List String →
    Except GraphError (List Step × List String × List String)
  | ([], seen, done) => .ok ([], seen, done)
  | (.leave name :: rest, seen, done) => .ok (rest, seen, name :: done)
  | (.enter name parent :: rest, seen, done) =>
    if name ∈ seen then .ok (rest, seen, done)
    else if name ∈ g.names then
      .ok ((g.dependenciesOf name).map (.enter · name) ++ .leave name :: rest, name :: seen, done)
    else .error (.danglingReference parent name)

/-- The steps to take, the references to follow and the tasks to enter get fewer with each round. -/
def strides (g : Graph) (todo : List Step) (seen : List String) : Nat :=
  todo.length + g.references seen + g.unseen seen

/-- A round ends the walk with an error or leaves less of it to do. -/
theorem stride_outcome (hnonempty : todo ≠ []) :
    (∃ e, g.stride (todo, seen, done) = .error e ∧ g.walk todo seen done = .error e) ∨
    ∃ todo' seen' done', g.stride (todo, seen, done) = .ok (todo', seen', done') ∧
      g.walk todo seen done = g.walk todo' seen' done' ∧
      g.strides todo' seen' < g.strides todo seen := by
  fun_cases g.walk todo seen done with
  | case1 => exact absurd rfl hnonempty
  | case2 name rest =>
    refine .inr ⟨rest, seen, name :: done, rfl, rfl, ?_⟩
    simp only [strides, List.length_cons]
    omega
  | case3 name parent rest hold =>
    refine .inr ⟨rest, seen, done, if_pos hold, rfl, ?_⟩
    simp only [strides, List.length_cons]
    omega
  | case4 name parent rest hnew hunknown =>
    have hmissing : name ∉ g.names := (Table.get?_eq_none_iff _ _).1 hunknown
    exact .inl ⟨_, by rw [stride, if_neg hnew, if_neg hmissing], rfl⟩
  | case5 name parent rest hnew t htask =>
    have hknown : name ∈ g.names := mem_names_of_get? htask
    refine .inr ⟨_, _, _, by rw [stride, if_neg hnew, if_pos hknown], ?_, ?_⟩
    · rw [dependenciesOf_eq htask]
    · have hreferences := references_cons (g := g) hnew
      have hfewer := unseen_cons_lt hknown hnew
      simp only [strides, List.length_append, List.length_map, List.length_cons]
      omega

/-- After enough rounds the walk has ended. -/
theorem iterate_stride {rounds : Nat} (henough : g.strides todo seen ≤ rounds) :
    ((· >>= g.stride)^[rounds] (.ok (todo, seen, done))).map (fun s => (s.1, s.2.2)) =
      (g.walk todo seen done).map fun listed => ([], listed.reverse) := by
  have hended (rounds : Nat) (seen done : List String) :
      ((· >>= g.stride)^[rounds] (.ok ([], seen, done))).map (fun s => (s.1, s.2.2)) =
        (g.walk [] seen done).map fun listed => ([], listed.reverse) := by
    rw [Function.iterate_fixed rfl, walk]
    simp [Except.map]
  -- On the rounds: each of them leaves fewer strides to take, and an error or the end stays as it
  -- is.
  induction rounds generalizing todo seen done with
  | zero =>
    have hlast : todo.length = 0 := by
      unfold strides at henough
      omega
    cases List.length_eq_zero_iff.1 hlast
    exact hended 0 seen done
  | succ rounds ih =>
    by_cases hlast : todo = []
    · cases hlast
      exact hended (rounds + 1) seen done
    · rw [Function.iterate_succ_apply]
      rcases @stride_outcome g todo seen done hlast with
        ⟨e, hfails, hfailed⟩ | ⟨todo', seen', done', hgoes, hsame, hfewer⟩
      · have hstays : (.ok (todo, seen, done) >>= g.stride) = .error e := hfails
        rw [hstays, Function.iterate_fixed rfl, hfailed]
        rfl
      · have hon : (.ok (todo, seen, done) >>= g.stride) = .ok (todo', seen', done') := hgoes
        rw [hon, hsame]
        exact ih (by omega)

/-! ## The search -/

/-- The search for what a task needs refuses exactly the names that are not in the graph. It meets a
reference that is not in the graph exactly if a needed task has one, and names such a task.
Otherwise it lists exactly the needed tasks, each once and the task itself last, and in legal order
if there is no cycle among them. On every graph the walk has ended after as many rounds as the graph
has references and tasks and one more. -/
theorem requiredFor_is_closure (g : Graph) (name : String) :
    (∀ n, g.requiredFor name = .error (.unknownTask n) ↔ n = name ∧ name ∉ g.names) ∧
    ((∃ task reference, g.requiredFor name = .error (.danglingReference task reference)) ↔
      ∃ task reference, g.Dangles name task reference) ∧
    (∀ task reference, g.requiredFor name = .error (.danglingReference task reference) →
      g.Dangles name task reference) ∧
    (name ∈ g.names → (∀ task reference, ¬ g.Dangles name task reference) →
      ∃ listed, g.requiredFor name = .ok listed ∧ g.ListsNeeded name listed) ∧
    ((· >>= g.stride)^[g.references [] + g.size + 1] (.ok ([.enter name name], [], []))).map
        (fun s => (s.1, s.2.2)) =
      (g.walk [.enter name name] [] []).map fun listed => ([], listed.reverse) := by
  -- Every step of the walk enters a task or comes back over a reference, and both run out.
  have hrounds : g.strides [.enter name name] [] ≤ g.references [] + g.size + 1 := by
    have hall : g.unseen [] ≤ g.size := List.countP_le_length.trans (List.length_map _).le
    simp only [strides, List.length_singleton]
    omega
  have hended := @iterate_stride g [.enter name name] [] [] _ hrounds
  by_cases hknown : name ∈ g.names
  · rcases requiredFor_outcome hknown with
      ⟨listed, hok, hlists, hinside⟩ | ⟨task, reference, hfails, hdangles⟩
    · rw [hok]
      refine ⟨fun n => iff_of_false nofun fun h => h.2 hknown, ?_, nofun,
        fun _ _ => ⟨listed, rfl, hlists⟩, hended⟩
      exact iff_of_false (fun ⟨_, _, h⟩ => nomatch h)
        fun ⟨_, _, hdangles⟩ => hlists.not_dangles hinside hdangles
    · rw [hfails]
      refine ⟨fun n => iff_of_false nofun fun h => h.2 hknown, ?_, ?_, ?_, hended⟩
      · exact iff_of_true ⟨task, reference, rfl⟩ ⟨task, reference, hdangles⟩
      · rintro t r ⟨⟩
        exact hdangles
      · exact fun _ hresolves => absurd hdangles (hresolves task reference)
  · have hresolves (task reference : String) : ¬ g.Dangles name task reference := by
      intro hdangles
      rcases hdangles.needed with htarget | ⟨t, htarget, hbefore⟩
      · exact hknown (List.mem_singleton.1 htarget ▸ hdangles.known)
      · exact hknown (List.mem_singleton.1 htarget ▸ hbefore.mem_names)
    rw [requiredFor_unknown hknown]
    refine ⟨fun n => ?_, ?_, nofun, fun h => absurd h hknown, hended⟩
    · rw [Except.error.injEq, GraphError.unknownTask.injEq, eq_comm, and_iff_left hknown]
    · exact iff_of_false (fun ⟨_, _, h⟩ => nomatch h) fun ⟨t, r, hdangles⟩ => hresolves t r hdangles

/-- A task with repeated and nested references, one that reaches a reference to a missing task,
two that wait for each other, and a name that is not there. -/
theorem requiredFor_is_closure_repeated :
    let g : Graph := ⟨.ofList [("c", ⟨.eval "x", [.ref "b", .tuple [.ref "a"]], ["b", "a"]⟩),
      ("b", .of (.eval "x") [.tuple [.ref "a", .ref "a"]]), ("a", .constant (.bool true)),
      ("d", .of (.eval "x") [.ref "c", .ref "z"]), ("u", ⟨.eval "x", [.ref "a"], ["v"]⟩),
      ("v", ⟨.eval "x", [], ["u"]⟩)], some "c", some "v"⟩
    (∃ listed, g.requiredFor "c" = .ok listed ∧ g.ListsNeeded "c" listed) ∧
      (∃ task reference, g.requiredFor "d" = .error (.danglingReference task reference) ∧
        g.Dangles "d" task reference) ∧
      (∃ listed, g.requiredFor "u" = .ok listed ∧ g.ListsNeeded "u" listed) ∧
      g.requiredFor "z" = .error (.unknownTask "z") := by
  intro g
  have hresolves (root : String) (inside : List String) (hown : root ∈ inside)
      (hknown : ∀ n ∈ inside, n ∈ g.names)
      (hclosed : ∀ n ∈ inside, ∀ d ∈ g.dependenciesOf n, d ∈ inside) (task reference : String) :
      ¬ g.Dangles root task reference := by
    intro hdangles
    have hmember : task ∈ inside :=
      hdangles.needed.of_passes hclosed (List.forall_mem_singleton.2 hown)
    exact hdangles.missing (hknown _ (hclosed task hmember reference hdangles.refers))
  obtain ⟨-, -, -, hc, -⟩ := requiredFor_is_closure g "c"
  obtain ⟨-, hmeets, hnames, -⟩ := requiredFor_is_closure g "d"
  obtain ⟨-, -, -, hu, -⟩ := requiredFor_is_closure g "u"
  obtain ⟨hz, -⟩ := requiredFor_is_closure g "z"
  have hmissing : g.Dangles "d" "d" "z" :=
    ⟨.inl List.mem_cons_self, by decide, by decide, by decide⟩
  obtain ⟨task, reference, hmet⟩ := hmeets.2 ⟨"d", "z", hmissing⟩
  refine ⟨hc (by decide) (hresolves "c" ["a", "b", "c"] ?_ ?_ ?_),
    ⟨task, reference, hmet, hnames task reference hmet⟩,
    hu (by decide) (hresolves "u" ["a", "u", "v"] ?_ ?_ ?_), (hz "z").2 ⟨rfl, by decide⟩⟩
  all_goals decide

end ColumnFlow.Graph
