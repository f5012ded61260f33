import Mathlib.Logic.Function.Iterate
import ColumnFlow.Proofs.Editing
import ColumnFlow.Proofs.Validity

/-!
# Edges that would close a cycle

The search along dependencies finds a task exactly if the start depends on it, in a number of rounds
that the references of the graph bound, whatever the graph is. Thus an edge is refused exactly if it
would close a cycle, and edges that are accepted keep a valid graph valid.
-/

namespace ColumnFlow.Graph

variable {g g' : Graph} {todo seen : List String} {task extra source target n : String}

/-! ## What is reached -/

/-- The names that are reached are closed under dependencies. -/
theorem reach_closed (hclosing : Digraph.Closing (fun n d => d ∈ g.dependenciesOf n) todo seen) :
    (∀ n ∈ seen, n ∈ g.reach todo seen) ∧ (∀ n ∈ todo, n ∈ g.reach todo seen) ∧
      ∀ n ∈ g.reach todo seen, ∀ d ∈ g.dependenciesOf n, d ∈ g.reach todo seen := by
  -- Along the recursion of the search, with `Closing` as its invariant.
  fun_induction g.reach todo seen with
  | case1 seen =>
    refine ⟨fun n hmem => hmem, List.forall_mem_nil _, fun n hmem d hedge => ?_⟩
    exact (hclosing n hmem d hedge).resolve_right List.not_mem_nil
  | case2 seen name rest hold ih =>
    obtain ⟨hentered, hcoming, hdownward⟩ := ih (hclosing.skip hold)
    exact ⟨hentered, List.forall_mem_cons.2 ⟨hentered name hold, hcoming⟩, hdownward⟩
  | case3 seen name rest hnew hunknown ih =>
    have hleaf : g.dependenciesOf name = [] := by rw [dependenciesOf, hunknown]; rfl
    have hvisited : Digraph.Closing (fun n d => d ∈ g.dependenciesOf n) ([] ++ rest)
        (name :: seen) := hclosing.visit fun d hedge => hleaf ▸ hedge
    obtain ⟨hentered, hcoming, hdownward⟩ := ih hvisited
    rw [List.forall_mem_cons] at hentered
    exact ⟨hentered.2, List.forall_mem_cons.2 ⟨hentered.1, hcoming⟩, hdownward⟩
  | case4 seen name rest hnew t hknown ih =>
    obtain ⟨hentered, hcoming, hdownward⟩ :=
      ih (hclosing.visit fun d hedge => dependenciesOf_eq hknown ▸ hedge)
    rw [List.forall_mem_cons] at hentered
    rw [List.forall_mem_append] at hcoming
    exact ⟨hentered.2, List.forall_mem_cons.2 ⟨hentered.1, hcoming.2⟩, hdownward⟩

/-- From a task exactly itself and what it depends on are reached. -/
theorem mem_reach_iff : n ∈ g.reach [source] [] ↔ n = source ∨ g.Before n source := by
  constructor
  · refine reach_inside (P := fun n => n = source ∨ g.Before n source) ?_ ?_ ?_ n
    · rintro m (rfl | hbefore) d hedge
      · exact .inr (.direct hedge)
      · exact .inr ((Before.direct hedge).trans hbefore)
    · exact List.forall_mem_singleton.2 (.inl rfl)
    · exact List.forall_mem_nil _
  · obtain ⟨-, hcoming, hdownward⟩ := @reach_closed g [source] [] (List.forall_mem_nil _)
    have hown := hcoming source List.mem_cons_self
    rintro (rfl | hbefore)
    · exact hown
    · exact hbefore.of_passes hdownward hown

/-- The search finds the cycles that an edge would close. -/
theorem closes_iff :
    (task = extra ∨ g.dependsOn extra task = true) ↔ task = extra ∨ g.Before task extra := by
  rw [dependsOn, decide_eq_true_iff, mem_reach_iff, ← or_assoc, or_self]

/-- A task that waits for none does not depend on another one. -/
theorem dependsOn_eq_false_of_root (hroot : g.dependenciesOf source = []) (hother : n ≠ source) :
    g.dependsOn source n = false := by
  rw [dependsOn, decide_eq_false_iff_not, mem_reach_iff]
  have hwaits (d : String) : d ∉ g.dependenciesOf source := hroot ▸ List.not_mem_nil
  rintro (hsame | hbefore)
  · exact hother hsame
  · cases hbefore with
    | direct hedge => exact hwaits _ hedge
    | through _ hedge => exact hwaits _ hedge

/-! ## The rounds of the search -/

/-- One round of the search, given the names to visit and those that were seen: the first name is
taken off, and if it is new its dependencies are to be visited next. -/
def visit (g : Graph) : List String × List String → List String × List String
  | ([], seen) => ([], seen)
  | (name :: rest, seen) =>
    if name ∈ seen then (rest, seen) else (g.dependenciesOf name ++ rest, name :: seen)

theorem visit_old {name : String} {rest : List String} (hold : name ∈ seen) :
    g.visit (name :: rest, seen) = (rest, seen) := if_pos hold

theorem visit_new {name : String} {rest : List String} (hnew : name ∉ seen) :
    g.visit (name :: rest, seen) = (g.dependenciesOf name ++ rest, name :: seen) := if_neg hnew

/-- A round does not change what is reached in the end. -/
theorem reach_visit (todo seen : List String) :
    g.reach (g.visit (todo, seen)).1 (g.visit (todo, seen)).2 = g.reach todo seen := by
  cases todo with
  | nil => rfl
  | cons name rest =>
    conv_rhs => rw [reach]
    by_cases hold : name ∈ seen
    · rw [visit_old hold, if_pos hold]
    · rw [visit_new hold, if_neg hold, dependenciesOf]
      split
      · next hunknown =>
        rw [hunknown]
        rfl
      · next t hknown =>
        rw [hknown]
        rfl

/-- The names to visit and the references to follow get fewer until nothing is to visit. -/
theorem visit_lt (hnonempty : todo ≠ []) :
    (g.visit (todo, seen)).1.length + g.references (g.visit (todo, seen)).2 <
      todo.length + g.references seen := by
  cases todo with
  | nil => exact absurd rfl hnonempty
  | cons name rest =>
    by_cases hold : name ∈ seen
    · rw [visit_old hold, List.length_cons]
      dsimp only
      omega
    · have hfewer := @references_cons g seen name hold
      rw [visit_new hold, List.length_append, List.length_cons]
      dsimp only
      omega

/-- After enough rounds nothing is left to visit. -/
theorem iterate_visit {rounds : Nat} (henough : todo.length + g.references seen ≤ rounds) :
    g.visit^[rounds] (todo, seen) = ([], g.reach todo seen) := by
  induction rounds generalizing todo seen with
  | zero =>
    cases List.length_eq_zero_iff.1 (Nat.eq_zero_of_add_eq_zero_right (Nat.le_zero.1 henough))
    rw [reach]
    rfl
  | succ rounds ih =>
    by_cases hlast : todo = []
    · rw [hlast, Function.iterate_fixed rfl, reach]
    · have hcloser := @visit_lt g todo seen hlast
      rw [Function.iterate_succ_apply, ← reach_visit]
      exact @ih (g.visit (todo, seen)).1 (g.visit (todo, seen)).2 (by omega)

/-! ## Accepted edges -/

/-- A further edge makes tasks depend on each other through it. -/
theorem Reordered.before {a b : String} (h : g.Reordered task extra g') (hknown : task ∈ g.names)
    (hbefore : g'.Before a b) : g.Before a b ∨
      ((a = extra ∨ g.Before a extra) ∧ (b = task ∨ g.Before task b)) := by
  induction hbefore with
  | direct hedge =>
    rcases (h.mem_dependenciesOf_iff hknown).1 hedge with hold | ⟨rfl, rfl⟩
    · exact .inl (.direct hold)
    · exact .inr ⟨.inl rfl, .inl rfl⟩
  | through _ hedge ih =>
    rcases (h.mem_dependenciesOf_iff hknown).1 hedge with hold | ⟨rfl, rfl⟩
    · rcases ih with hbefore | ⟨hfront, rfl | hbehind⟩
      · exact .inl (.through hbefore hold)
      · exact .inr ⟨hfront, .inr (.direct hold)⟩
      · exact .inr ⟨hfront, .inr (.through hbehind hold)⟩
    · rcases ih with hbefore | ⟨hfront, -⟩
      · exact .inr ⟨.inr hbefore, .inl rfl⟩
      · exact .inr ⟨hfront, .inl rfl⟩

/-- An edge closes no cycle if its end does not depend on its start. -/
theorem Reordered.acyclic (h : g.Reordered task extra g') (hknown : task ∈ g.names)
    (hapart : ¬ (task = extra ∨ g.Before task extra)) (hacyclic : g.Acyclic) : g'.Acyclic := by
  intro n hcycle
  rcases h.before hknown hcycle with hold | ⟨rfl | hfront, rfl | hbehind⟩
  · exact hacyclic n hold
  · exact hapart (.inl rfl)
  · exact hapart (.inr hbehind)
  · exact hapart (.inr hfront)
  · exact hapart (.inr (hbehind.trans hfront))

theorem Reordered.resolves (h : g.Reordered task extra g') (hknown : task ∈ g.names)
    (hknown' : extra ∈ g.names) (hresolves : g.Resolves) : g'.Resolves := by
  intro n hmem d hedge
  rw [h.names] at hmem ⊢
  rcases (h.mem_dependenciesOf_iff hknown).1 hedge with hold | ⟨-, rfl⟩
  · exact hresolves n hmem d hold
  · exact hknown'

/-- An attempt to order a task after another keeps a valid graph valid. -/
theorem validate_appendDependency (hvalid : g.validate = .ok ()) (task extra : String) :
    (Editing.appendDependency task extra g).2.validate = .ok () := by
  rw [Editing.appendDependency_eq]
  cases happended : g.appendDependency task extra with
  | error e => exact hvalid
  | ok g' =>
    obtain ⟨hknown, hknown', hapart, hreordered⟩ := reordered_of_appendDependency happended
    obtain ⟨hacyclic, hresolves⟩ := (validate_eq_ok_iff DigraphLibrary.depthFirst_lawful).1 hvalid
    rw [closes_iff] at hapart
    exact (validate_eq_ok_iff DigraphLibrary.depthFirst_lawful).2
      ⟨hreordered.acyclic hknown hapart hacyclic, hreordered.resolves hknown hknown' hresolves⟩

/-- The graph that is left when tasks are ordered after others one by one, whatever comes of it. -/
def orderAll (g : Graph) (edges : List (String × String)) : Graph :=
  edges.foldl (fun g e => (Editing.appendDependency e.1 e.2 g).2) g

theorem validate_orderAll (hvalid : g.validate = .ok ()) (edges : List (String × String)) :
    (g.orderAll edges).validate = .ok () := by
  unfold orderAll
  induction edges generalizing g with
  | nil => exact hvalid
  | cons e es ih => exact ih (validate_appendDependency hvalid e.1 e.2)

/-- A task can be ordered after another exactly if both are in the graph and the other is not the
task itself and does not depend on it; then it comes after the other as well, and nothing else is
changed. The search for a cycle is over after as many rounds as the graph has references and one
more. Whatever edges are tried in turn on a valid graph, it stays valid. -/
theorem appendDependency_refuses_cycles (g : Graph) (task extra : String) :
    (task ∉ g.names → g.appendDependency task extra = .error (.unknownTask task)) ∧
    (task ∈ g.names → extra ∉ g.names →
      g.appendDependency task extra = .error (.unknownTask extra)) ∧
    (task ∈ g.names → extra ∈ g.names →
      (g.appendDependency task extra = .error (.cycle task extra) ↔
        task = extra ∨ g.Before task extra) ∧
      (¬ (task = extra ∨ g.Before task extra) →
        ∃ g', g.appendDependency task extra = .ok g' ∧ g.Reordered task extra g')) ∧
    g.visit^[g.references [] + 1] ([extra], []) = ([], g.reach [extra] []) ∧
    (g.validate = .ok () → ∀ edges, (g.orderAll edges).validate = .ok ()) := by
  have hsearch : g.visit^[g.references [] + 1] ([extra], []) = ([], g.reach [extra] []) :=
    iterate_visit (Nat.add_comm _ _).le
  rw [← closes_iff]
  rcases g.appendDependency_outcome task extra with ⟨hmissing, hrefused⟩ |
    ⟨hknown, hmissing, hrefused⟩ | ⟨hknown, hknown', hcloses, hrefused⟩ |
    ⟨hknown, hknown', hapart, g', haccepted, hreordered⟩
  · exact ⟨fun _ => hrefused, fun hknown => absurd hknown hmissing,
      fun hknown => absurd hknown hmissing, hsearch, validate_orderAll⟩
  · exact ⟨fun hmissing => absurd hknown hmissing, fun _ _ => hrefused,
      fun _ hknown' => absurd hknown' hmissing, hsearch, validate_orderAll⟩
  · exact ⟨fun hmissing => absurd hknown hmissing, fun _ hmissing => absurd hknown' hmissing,
      fun _ _ => ⟨iff_of_true hrefused hcloses, fun hapart => absurd hcloses hapart⟩, hsearch,
      validate_orderAll⟩
  · refine ⟨fun hmissing => absurd hknown hmissing, fun _ hmissing => absurd hknown' hmissing,
      fun _ _ => ⟨iff_of_false ?_ hapart, fun _ => ⟨g', haccepted, hreordered⟩⟩, hsearch,
      validate_orderAll⟩
    rw [haccepted]
    exact nofun

/-- A task that waits for the first one by way of a nested reference and of another task: the edge
back is refused, the edge forth is accepted, and a repeated one and one to a missing task do no
harm. -/
theorem appendDependency_refuses_cycles_nested :
    let g : Graph := ⟨.ofList [("a", .constant (.bool true)),
      ("b", .of (.eval "x") [.tuple [.absent, .tuple [.ref "a"]]]),
      ("c", ⟨.constant (.bool true), [], ["b"]⟩)], some "a", some "c"⟩
    g.validate = .ok () ∧ g.appendDependency "a" "c" = .error (.cycle "a" "c") ∧
      (∃ g', g.appendDependency "c" "a" = .ok g' ∧ g.Reordered "c" "a" g') ∧
      g.appendDependency "a" "z" = .error (.unknownTask "z") ∧
      (g.orderAll [("a", "c"), ("c", "a"), ("c", "a"), ("a", "z")]).validate = .ok () := by
  intro g
  have hlegal : g.Legal g.names := by
    refine ⟨by decide, ⟨_, rfl, ?_⟩, by decide, ⟨_, rfl, ?_⟩, by decide, ⟨_, rfl, ?_⟩, trivial⟩
    · exact List.forall_mem_nil _
    · exact List.forall_mem_singleton.2 List.mem_cons_self
    · exact List.forall_mem_singleton.2 (List.mem_cons_of_mem _ List.mem_cons_self)
  have hvalid := hlegal.validate_eq_ok
  have ha : "a" ∈ g.names := by decide
  have hc : "c" ∈ g.names := by decide
  have hz : "z" ∉ g.names := by decide
  have hfirst : g.Before "a" "b" := .direct List.mem_cons_self
  have hback : g.Before "a" "c" := .through hfirst List.mem_cons_self
  have hforth : ¬ ("c" = "a" ∨ g.Before "c" "a") := by
    rintro (hsame | hbefore)
    · exact absurd hsame (by decide)
    · exact hlegal.before_asymm hc hback hbefore
  obtain ⟨-, -, hcloses, -, hkeeps⟩ := appendDependency_refuses_cycles g "a" "c"
  obtain ⟨-, -, hopens, -⟩ := appendDependency_refuses_cycles g "c" "a"
  obtain ⟨-, hmissing, -⟩ := appendDependency_refuses_cycles g "a" "z"
  exact ⟨hvalid, (hcloses ha hc).1.2 (.inr hback), (hopens hc ha).2 hforth, hmissing ha hz,
    hkeeps hvalid _⟩

end ColumnFlow.Graph
