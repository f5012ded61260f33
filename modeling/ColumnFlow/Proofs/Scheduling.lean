import ColumnFlow.Proofs.Execution.Runs
import ColumnFlow.Schedule

/-!
# Scheduled runs are legal runs

Whatever order the tasks of a plan report in, the tasks that have reported form a legal list,
and the results and the environment are those of running that list. The invariant counts: a
task waits for as many results as it has needs that have not reported, and it is in flight when
there are none left. While tasks are missing one of them is in flight, so that a run never
stalls.
-/

namespace ColumnFlow

/-! ## Plans -/

/-- The tasks of a plan are in the graph and closed under dependencies, and can be ordered. -/
structure Plan.Sound (p : Plan) : Prop where
  nodup : p.nodes.Nodup
  orderable : ∃ order, p.graph.Legal order ∧ ∀ n ∈ p.nodes, n ∈ order
  closed : ∀ n ∈ p.nodes, ∀ d ∈ p.graph.dependenciesOf n, d ∈ p.nodes

namespace Plan

variable {p : Plan}

/-- The nodes of a plan are tasks of its graph. -/
theorem Sound.known (hsound : p.Sound) {n : String} (hmem : n ∈ p.nodes) :
    ∃ t, p.graph.get? n = some t := by
  obtain ⟨order, hlegal, hinside⟩ := hsound.orderable
  obtain ⟨t, hknown, _⟩ := hlegal.closed (hinside n hmem)
  exact ⟨t, hknown⟩

theorem Sound.needs_eq (hsound : p.Sound) {n : String} (hmem : n ∈ p.nodes) :
    p.needs n = p.graph.dependenciesOf n :=
  List.filter_eq_self.2 fun d hedge => decide_eq_true (hsound.closed n hmem d hedge)

/-- How many results a task waits for when the tasks in `done` have reported. -/
def unmet (p : Plan) (done : List String) (n : String) : Nat := (p.needs n).countP (· ∉ done)

/-- A task has nothing to wait for exactly if all it needs has reported. -/
theorem unmet_eq_zero_iff {done : List String} {n : String} :
    p.unmet done n = 0 ↔ ∀ d ∈ p.needs n, d ∈ done := by
  simp [unmet, List.countP_eq_zero]

theorem unmet_nil {n : String} : p.unmet [] n = (p.needs n).length := by
  simp [unmet]

/-- A report meets as many needs as name it. -/
theorem unmet_snoc {done : List String} {name : String} (hnew : name ∉ done) (n : String) :
    p.unmet done n = p.unmet (done ++ [name]) n + (p.needs n).count name := by
  unfold unmet
  induction p.needs n with
  | nil => rfl
  | cons d ds ih =>
    rw [List.countP_cons, List.countP_cons, List.count_cons, ih]
    by_cases hsame : d = name
    · subst hsame
      simp [hnew]
      omega
    · have hother : (d == name) = false := by simpa using hsame
      by_cases hold : d ∈ done
      · simp [hold, hother]
      · simp [hold, hsame]
        omega

theorem filterMap_eq_replicate (name n : String) (ds : List String) :
    (ds.filterMap fun d => if d = name then some n else none) = .replicate (ds.count name) n := by
  induction ds with
  | nil => rfl
  | cons d ds ih =>
    rw [List.filterMap_cons, List.count_cons, ih]
    by_cases hsame : d = name
    · simp [hsame, List.replicate_succ]
    · simp [hsame]

/-- Repeating names as often as a count says makes that count theirs. -/
theorem count_flatMap_replicate {ns : List String} (hnodup : ns.Nodup) (c : String → Nat)
    (n : String) :
    (ns.flatMap fun m => .replicate (c m) m).count n = if n ∈ ns then c n else 0 := by
  induction ns with
  | nil => rfl
  | cons m ms ih =>
    obtain ⟨hfresh, hnodup⟩ := List.nodup_cons.1 hnodup
    rw [List.flatMap_cons, List.count_append, ih hnodup, List.count_replicate]
    by_cases hsame : m = n
    · subst hsame
      simp [hfresh]
    · simp [hsame, Ne.symm hsame]

/-- A report is announced to a task once for each need that names it. -/
theorem count_dependents (hnodup : p.nodes.Nodup) {name n : String} (hmem : n ∈ p.nodes) :
    (p.dependents name).count n = (p.needs n).count name := by
  simp only [dependents, filterMap_eq_replicate]
  rw [count_flatMap_replicate hnodup, if_pos hmem]

/-- A task is told of a report exactly if it needs the reporting task. -/
theorem mem_dependents_iff {name n : String} :
    n ∈ p.dependents name ↔ n ∈ p.nodes ∧ name ∈ p.needs n := by
  unfold dependents
  simp only [List.mem_flatMap, filterMap_eq_replicate, List.mem_replicate]
  constructor
  · rintro ⟨m, hmem, hnonzero, rfl⟩
    exact ⟨hmem, List.count_pos_iff.1 (Nat.pos_of_ne_zero hnonzero)⟩
  · rintro ⟨hmem, hneed⟩
    exact ⟨n, hmem, Nat.ne_of_gt (List.count_pos_iff.2 hneed), rfl⟩

/-- A counter begins at the number of needs. -/
theorem get?_counters {n : String} (hmem : n ∈ p.nodes) :
    p.counters.get? n = some (p.needs n).length := by
  refine Table.get?_insertAll_of_mem _ (List.mem_map.2 ⟨n, hmem, rfl⟩) ?_
  intro count hmem
  obtain ⟨m, _, heq⟩ := List.mem_map.1 hmem
  cases heq
  rfl

/-- A task is started with the results of everything it depends on. -/
theorem get?_inputsOf {results : Table Value} {n d : String}
    (hneed : d ∈ p.graph.dependenciesOf n) : (p.inputsOf results n).get? d = results.get? d := by
  unfold inputsOf Table.ofList
  cases hresult : results.get? d with
  | none =>
    rw [Table.get?_insertAll_of_not_mem, Table.get?_empty]
    simp [hresult]
  | some v =>
    refine Table.get?_insertAll_of_mem _ ?_ ?_
    · exact List.mem_filterMap.2 ⟨d, hneed, by rw [hresult]; rfl⟩
    · intro w hmem
      obtain ⟨d', _, heq⟩ := List.mem_filterMap.1 hmem
      obtain ⟨w', hresult', heq⟩ := Option.map_eq_some_iff.1 heq
      cases heq
      rw [hresult] at hresult'
      exact (Option.some.inj hresult').symm

/-- A task is started with nothing else. -/
theorem get?_inputsOf_eq_some_iff {results : Table Value} {n d : String} {v : Value} :
    (p.inputsOf results n).get? d = some v ↔
      d ∈ p.graph.dependenciesOf n ∧ results.get? d = some v := by
  by_cases hneed : d ∈ p.graph.dependenciesOf n
  · rw [get?_inputsOf hneed, and_iff_right hneed]
  · refine iff_of_false (fun hfound => ?_) fun h => hneed h.1
    rw [inputsOf, Table.ofList, Table.get?_insertAll_of_not_mem, Table.get?_empty] at hfound
    · cases hfound
    · intro hmem
      obtain ⟨pair, hinside, rfl⟩ := List.mem_map.1 hmem
      obtain ⟨d, hedge, hnamed⟩ := List.mem_filterMap.1 hinside
      obtain ⟨v, -, rfl⟩ := Option.map_eq_some_iff.1 hnamed
      exact hneed hedge

end Plan

namespace Progress

variable {p : Plan} {evaluator : Evaluator} {env : Environment} {done pending : List String}
variable {s : Progress}

/-- The tasks in flight. -/
def flying (s : Progress) : List String := s.inFlight.map Flight.name

/-! ## The invariant of the counters -/

/-- The tasks in `done` have reported, the last of them to all that wait for it but those in
`pending`. -/
structure Counted (p : Plan) (done pending : List String) (s : Progress) : Prop where
  legal : p.graph.Legal done
  inside : ∀ n ∈ done, n ∈ p.nodes
  waits : ∀ n ∈ p.nodes, s.waiting.get? n = some (p.unmet done n + pending.count n)
  flies : ∀ n, n ∈ s.flying ↔ n ∈ p.nodes ∧ n ∉ done ∧ p.unmet done n + pending.count n = 0
  once : s.flying.Nodup
  coming : ∀ n ∈ pending, n ∈ p.nodes ∧ n ∉ done

theorem flying_start {n : String} : (s.start p n).flying = s.flying ++ [n] := by
  simp [flying, start]

/-- Starting tasks puts them in flight, with the inputs that are there. -/
theorem foldl_start (ns : List String) :
    ns.foldl (start p) s =
      { s with inFlight := s.inFlight ++ ns.map fun n => ⟨n, p.inputsOf s.results n⟩ } := by
  induction ns generalizing s with
  | nil => simp
  | cons n ns ih =>
    rw [List.foldl_cons, ih]
    simp [start]

/-- At the beginning, the tasks that wait for nothing are started. -/
theorem inFlight_initial : (initial p env).inFlight =
    (p.nodes.filter fun n => (p.needs n).isEmpty).map fun n => ⟨n, p.inputsOf .empty n⟩ := by
  unfold initial
  rw [foldl_start]
  rfl

/-- The counters of a fresh run are right. -/
theorem counted_initial (hsound : p.Sound) : (initial p env).Counted p [] [] := by
  have hflying : (initial p env).flying = p.nodes.filter fun n => (p.needs n).isEmpty := by
    rw [flying, inFlight_initial, List.map_map]
    exact List.map_id' _
  refine ⟨trivial, by simp, ?_, ?_, ?_, by simp⟩
  · intro n hmem
    unfold initial
    rw [foldl_start, Plan.unmet_nil]
    exact Plan.get?_counters hmem
  · intro n
    rw [hflying]
    simp [Plan.unmet_nil]
  · rw [hflying]
    exact hsound.nodup.sublist List.filter_sublist

/-- One announcement of a report. -/
theorem Counted.countDown {m : String} (h : s.Counted p done (m :: pending)) :
    (s.countDown p m).Counted p done pending := by
  obtain ⟨hknown, hmissing⟩ := h.coming m List.mem_cons_self
  have hwaiting := h.waits m hknown
  rw [List.count_cons_self, ← Nat.add_assoc] at hwaiting
  have hgrounded : m ∉ s.flying := by
    intro hflies
    have hzero := ((h.flies m).1 hflies).2.2
    rw [List.count_cons_self] at hzero
    exact absurd hzero (Nat.succ_ne_zero _)
  have hcoming : ∀ n ∈ pending, n ∈ p.nodes ∧ n ∉ done :=
    fun n hmem => h.coming n (List.mem_cons_of_mem _ hmem)
  have hwaits : ∀ n ∈ p.nodes,
      (s.waiting.insert m (p.unmet done m + pending.count m)).get? n =
        some (p.unmet done n + pending.count n) := by
    intro n hmem
    rw [Table.get?_insert]
    by_cases hsame : n = m
    · rw [if_pos hsame, hsame]
    · rw [if_neg hsame, h.waits n hmem, List.count_cons_of_ne (Ne.symm hsame)]
  unfold Progress.countDown
  rw [hwaiting]
  dsimp only
  rw [Nat.add_sub_cancel]
  -- The announcement is the last one that the task waits for, so that it starts, or it goes on
  -- waiting.
  split
  · next hzero =>
    refine ⟨h.legal, h.inside, hwaits, ?_, ?_, hcoming⟩
    · intro n
      rw [flying_start, List.mem_append, List.mem_singleton]
      change n ∈ s.flying ∨ n = m ↔ _
      have hold := h.flies n
      by_cases hsame : n = m
      · subst hsame
        exact iff_of_true (.inr rfl) ⟨hknown, hmissing, hzero⟩
      · rw [List.count_cons_of_ne (Ne.symm hsame)] at hold
        rw [or_iff_left hsame, hold]
    · rw [flying_start]
      refine List.nodup_append.2 ⟨h.once, List.nodup_cons.2 ⟨by simp, List.nodup_nil⟩, ?_⟩
      intro n hflies k hmem hsame
      cases List.mem_singleton.1 hmem
      exact hgrounded (hsame ▸ hflies)
  · next hpositive =>
    refine ⟨h.legal, h.inside, hwaits, ?_, h.once, hcoming⟩
    intro n
    have hold := h.flies n
    by_cases hsame : n = m
    · subst hsame
      exact iff_of_false hgrounded fun h => hpositive h.2.2
    · rwa [List.count_cons_of_ne (Ne.symm hsame)] at hold

/-- Announcing a report to all who wait for it keeps the counters right. -/
theorem Counted.announce {rest : List String} (h : s.Counted p done (pending ++ rest)) :
    (pending.foldl (Progress.countDown p) s).Counted p done rest := by
  induction pending generalizing s with
  | nil => exact h
  | cons m ms ih => exact ih h.countDown

/-- Announcing a report only starts tasks, with the results that are there. -/
theorem announce_starts (pending : List String) :
    ∃ ns : List String, (pending.foldl (countDown p) s).inFlight =
        s.inFlight ++ ns.map (fun n => ⟨n, p.inputsOf s.results n⟩) ∧
      (pending.foldl (countDown p) s).results = s.results ∧
      (pending.foldl (countDown p) s).env = s.env := by
  have hone (s : Progress) (m : String) : ∃ ns : List String, (s.countDown p m).inFlight =
        s.inFlight ++ ns.map (fun n => ⟨n, p.inputsOf s.results n⟩) ∧
      (s.countDown p m).results = s.results ∧ (s.countDown p m).env = s.env := by
    unfold countDown
    split
    · exact ⟨[], by simp, rfl, rfl⟩
    · dsimp only
      split
      · exact ⟨[m], rfl, rfl, rfl⟩
      · exact ⟨[], by simp, rfl, rfl⟩
  induction pending generalizing s with
  | nil => exact ⟨[], by simp, rfl, rfl⟩
  | cons m ms ih =>
    obtain ⟨first, hflights, hresults, henv⟩ := hone s m
    obtain ⟨rest, hflights', hresults', henv'⟩ := @ih (s.countDown p m)
    refine ⟨first ++ rest, ?_, hresults'.trans hresults, henv'.trans henv⟩
    rw [List.foldl_cons, hflights', hflights, hresults, List.map_append, List.append_assoc]

/-! ## Reports -/

theorem pick?_eq_none {flights : List Flight} {place : Nat} (hnone : pick? flights place = none) :
    flights = [] := by
  cases flights with
  | nil => rfl
  | cons f fs =>
    have hbound : place % (f :: fs).length < (f :: fs).length :=
      Nat.mod_lt _ (Nat.zero_lt_succ _)
    simp only [pick?, Option.map_eq_none_iff, List.getElem?_eq_none_iff] at hnone
    exact absurd hbound (Nat.not_lt.2 hnone)

/-- A picked task was in flight, and the others stay so. -/
theorem pick?_eq_some {flights others : List Flight} {place : Nat} {f : Flight}
    (hsome : pick? flights place = some (f, others)) :
    ∃ first second, flights = first ++ f :: second ∧ others = first ++ second := by
  obtain ⟨g, hfound, heq⟩ := Option.map_eq_some_iff.1 hsome
  cases heq
  obtain ⟨hbound, rfl⟩ := List.getElem?_eq_some_iff.1 hfound
  refine ⟨flights.take _, flights.drop _, ?_, List.eraseIdx_eq_take_drop_succ _ _⟩
  rw [List.getElem_cons_drop, List.take_append_drop]

theorem perm_of_pick? {flights others : List Flight} {place : Nat} {f : Flight}
    (hpicked : pick? flights place = some (f, others)) : flights.Perm (f :: others) := by
  obtain ⟨first, second, rfl, rfl⟩ := pick?_eq_some hpicked
  exact List.perm_middle

theorem mem_of_pick? {flights others : List Flight} {place : Nat} {f : Flight}
    (hpicked : pick? flights place = some (f, others)) : f ∈ flights :=
  (perm_of_pick? hpicked).mem_iff.2 List.mem_cons_self

/-- The others in flight have been there before. -/
theorem mem_of_mem_others {flights others : List Flight} {place : Nat} {f g : Flight}
    (hpicked : pick? flights place = some (f, others)) (hmem : g ∈ others) : g ∈ flights :=
  (perm_of_pick? hpicked).mem_iff.2 (List.mem_cons_of_mem _ hmem)

/-- A task in flight can be the next one of the legal list. -/
theorem Counted.ready {f : Flight} (hsound : p.Sound) (h : s.Counted p done [])
    (hmem : f ∈ s.inFlight) : f.name ∈ p.nodes ∧ p.graph.Legal (done ++ [f.name]) := by
  obtain ⟨hmem, hfresh, hzero⟩ := (h.flies f.name).1 (List.mem_map_of_mem hmem)
  obtain ⟨t, hknown⟩ := hsound.known hmem
  refine ⟨hmem, Graph.legal_snoc.2 ⟨h.legal, hfresh, t, hknown, ?_⟩⟩
  intro d hneed
  refine Plan.unmet_eq_zero_iff.1 hzero d ?_
  rwa [hsound.needs_eq hmem, Graph.dependenciesOf_eq hknown]

/-- A report that is still to be announced to all that wait for it. -/
theorem Counted.report {place : Nat} {f : Flight} {others : List Flight} (v : Value)
    (env' : Environment) (hsound : p.Sound) (h : s.Counted p done [])
    (hpicked : pick? s.inFlight place = some (f, others)) :
    Counted p (done ++ [f.name]) (p.dependents f.name)
      { s with inFlight := others, env := env', results := s.results.insert f.name v } := by
  obtain ⟨first, second, hflights, rfl⟩ := pick?_eq_some hpicked
  have hmem : f ∈ s.inFlight := by simp [hflights]
  have hflying : s.flying = first.map Flight.name ++ f.name :: second.map Flight.name := by
    simp [Progress.flying, hflights]
  obtain ⟨hnode, hlegal⟩ := h.ready hsound hmem
  have hfresh : f.name ∉ done := (Graph.legal_snoc.1 hlegal).2.1
  have honce := h.once
  rw [hflying, List.perm_middle.nodup_iff, ← List.map_append, List.nodup_cons] at honce
  -- What the report takes off the unmet needs of a task is what is still to be announced to it.
  have hcount {n : String} (hmem : n ∈ p.nodes) : p.unmet done n =
      p.unmet (done ++ [f.name]) n + (p.dependents f.name).count n := by
    rw [Plan.count_dependents hsound.nodup hmem]
    exact Plan.unmet_snoc hfresh n
  have hinside := List.forall_mem_append.2 ⟨h.inside, List.forall_mem_singleton.2 hnode⟩
  refine ⟨hlegal, hinside, ?_, ?_, honce.2, ?_⟩
  · intro n hmem
    rw [← hcount hmem]
    exact h.waits n hmem
  · intro n
    have hold := h.flies n
    rw [hflying, List.mem_append, List.mem_cons, or_left_comm, ← List.mem_append,
      ← List.map_append] at hold
    change n ∈ (first ++ second).map Flight.name ↔ _
    rw [List.mem_append, List.mem_singleton, not_or]
    constructor
    · intro hflies
      obtain ⟨hmem, hmissing, hzero⟩ := hold.1 (.inr hflies)
      exact ⟨hmem, ⟨hmissing, fun hsame => honce.1 (hsame ▸ hflies)⟩, hcount hmem ▸ hzero⟩
    · rintro ⟨hmem, ⟨hmissing, hother⟩, hzero⟩
      exact (hold.2 ⟨hmem, hmissing, (hcount hmem).trans hzero⟩).resolve_left hother
  · intro n hannounced
    obtain ⟨hmem, hneed⟩ := Plan.mem_dependents_iff.1 hannounced
    refine ⟨hmem, fun hreported => hlegal.not_mem_dependenciesOf hreported ?_⟩
    rwa [hsound.needs_eq hmem] at hneed

/-- A report that is announced to all that wait for it. -/
theorem Counted.deliver {place : Nat} {f : Flight} {others : List Flight} (v : Value)
    (env' : Environment) (hsound : p.Sound) (h : s.Counted p done [])
    (hpicked : pick? s.inFlight place = some (f, others)) :
    (deliver p { s with inFlight := others, env := env' } f.name v).Counted p
      (done ++ [f.name]) [] := by
  have hreported := h.report v env' hsound hpicked
  rw [← List.append_nil (p.dependents f.name)] at hreported
  exact hreported.announce

/-- While tasks are missing one of them is in flight: the first missing one of an order. -/
theorem Counted.not_stalled {m : String} (hsound : p.Sound) (h : s.Counted p done [])
    (hmem : m ∈ p.nodes) (hmissing : m ∉ done) : s.inFlight ≠ [] := by
  obtain ⟨order, hlegal, hinside⟩ := hsound.orderable
  cases hfound : order.find? fun n => decide (n ∈ p.nodes ∧ n ∉ done) with
  | none =>
    have hall := List.find?_eq_none.1 hfound m (hinside m hmem)
    exact absurd (decide_eq_true ⟨hmem, hmissing⟩) hall
  | some n =>
    obtain ⟨hfirst, front, back, rfl, hreported⟩ := List.find?_eq_some_iff_append.1 hfound
    obtain ⟨hnode, hmissing⟩ := of_decide_eq_true hfirst
    have hzero : p.unmet done n = 0 := by
      refine Plan.unmet_eq_zero_iff.2 fun d hneed => ?_
      have hedge : d ∈ p.graph.dependenciesOf n := hsound.needs_eq hnode ▸ hneed
      have hearly := hreported d (hlegal.mem_of_before (.direct hedge))
      simpa [hsound.closed n hnode d hedge] using hearly
    intro hlanded
    have hflies := (h.flies n).2 ⟨hnode, hmissing, hzero⟩
    rw [flying, hlanded] at hflies
    cases hflies

/-- Once as many tasks have reported as the plan has, all of them have. -/
theorem Counted.complete (h : s.Counted p done []) (henough : p.nodes.length ≤ done.length)
    (n : String) : n ∈ done ↔ n ∈ p.nodes := by
  refine ⟨h.inside n, fun hmem => ?_⟩
  refine Decidable.byContradiction fun hmissing => ?_
  have hmore : (n :: done).length ≤ p.nodes.length := by
    refine List.Nodup.length_le_of_subset (List.nodup_cons.2 ⟨hmissing, h.legal.nodup⟩) ?_
    exact List.forall_mem_cons.2 ⟨hmem, h.inside⟩
  exact absurd (Nat.le_trans hmore henough) (Nat.not_succ_le_self _)

/-- Before all tasks have reported, one can be picked to report next. -/
theorem Counted.exists_pick (hsound : p.Sound) (h : s.Counted p done [])
    (hshort : done.length < p.nodes.length) (place : Nat) :
    ∃ f others, pick? s.inFlight place = some (f, others) := by
  obtain ⟨m, hmem, hmissing⟩ : ∃ m ∈ p.nodes, m ∉ done := by
    refine Decidable.byContradiction fun hall => absurd hshort (Nat.not_lt.2 ?_)
    refine List.Nodup.length_le_of_subset hsound.nodup fun m hmem => ?_
    exact Decidable.byContradiction fun hmissing => hall ⟨m, hmem, hmissing⟩
  cases hpicked : pick? s.inFlight place with
  | none => exact absurd (pick?_eq_none hpicked) (h.not_stalled hsound hmem hmissing)
  | some next => exact ⟨next.1, next.2, rfl⟩

/-! ## The invariant of a run -/

/-- The tasks in `done` have reported, the last of them to all that wait for it but those in
`pending`, and the results and the environment are those of running `done`. -/
structure Reached (evaluator : Evaluator) (p : Plan) (env : Environment)
    (done pending : List String) (s : Progress) : Prop where
  legal : p.graph.Legal done
  inside : ∀ n ∈ done, n ∈ p.nodes
  ran : p.graph.execute evaluator (.start env) done = .ok ⟨s.results, s.env⟩
  waits : ∀ n ∈ p.nodes, s.waiting.get? n = some (p.unmet done n + pending.count n)
  flies : ∀ n, n ∈ s.flying ↔ n ∈ p.nodes ∧ n ∉ done ∧ p.unmet done n + pending.count n = 0
  once : s.flying.Nodup
  inputs : ∀ f ∈ s.inFlight, ∀ d ∈ p.graph.dependenciesOf f.name,
    f.inputs.get? d = s.results.get? d
  coming : ∀ n ∈ pending, n ∈ p.nodes ∧ n ∉ done

theorem Reached.counted (h : s.Reached evaluator p env done pending) : s.Counted p done pending :=
  ⟨h.legal, h.inside, h.waits, h.flies, h.once, h.coming⟩

theorem Counted.reached (h : s.Counted p done pending)
    (hran : p.graph.execute evaluator (.start env) done = .ok ⟨s.results, s.env⟩)
    (hinputs : ∀ f ∈ s.inFlight, ∀ d ∈ p.graph.dependenciesOf f.name,
      f.inputs.get? d = s.results.get? d) : s.Reached evaluator p env done pending :=
  ⟨h.legal, h.inside, hran, h.waits, h.flies, h.once, hinputs, h.coming⟩

/-- Before any report, the tasks that wait for nothing are in flight. -/
theorem reached_initial (hsound : p.Sound) : (initial p env).Reached evaluator p env [] [] := by
  refine (counted_initial hsound).reached ?_ ?_
  · unfold initial
    rw [foldl_start]
    rfl
  · intro f hmem d hneed
    rw [inFlight_initial] at hmem
    obtain ⟨n, _, rfl⟩ := List.mem_map.1 hmem
    unfold initial
    rw [foldl_start]
    exact Plan.get?_inputsOf hneed

/-- The work of a started task is that of running it now: what it was started with is what is
there. -/
theorem Reached.runTask_eq {f : Flight} (h : s.Reached evaluator p env done [])
    (hmem : f ∈ s.inFlight) : p.graph.runTask evaluator ⟨s.results, s.env⟩ f.name =
      (perform evaluator p s.env f).map fun r => ⟨s.results.insert f.name r.1, r.2⟩ := by
  unfold Graph.runTask perform
  cases hknown : p.graph.get? f.name with
  | none => rfl
  | some t =>
    have hrefs : ∀ r ∈ t.refs, f.inputs.get? r = s.results.get? r := by
      intro r hmem'
      refine h.inputs f hmem r ?_
      rw [Graph.dependenciesOf_eq hknown]
      exact Task.refs_subset_dependencies hmem'
    dsimp only
    rw [Task.run_congr hrefs]
    cases t.run evaluator s.results.get? s.env with
    | error e => rfl
    | ok r => rfl

/-- A report that is announced to all that wait for it. -/
theorem Reached.deliver {place : Nat} {f : Flight} {others : List Flight} {v : Value}
    {env' : Environment} (hsound : p.Sound) (h : s.Reached evaluator p env done [])
    (hpicked : pick? s.inFlight place = some (f, others))
    (hperformed : perform evaluator p s.env f = .ok (v, env')) :
    (deliver p { s with inFlight := others, env := env' } f.name v).Reached evaluator p env
      (done ++ [f.name]) [] := by
  obtain ⟨first, second, hflights, rfl⟩ := pick?_eq_some hpicked
  have hmem : f ∈ s.inFlight := mem_of_pick? hpicked
  have hfresh : f.name ∉ done := (Graph.legal_snoc.1 (h.counted.ready hsound hmem).2).2.1
  obtain ⟨ns, hinFlight, hresults, henv⟩ := @announce_starts p
    { s with inFlight := first ++ second, env := env', results := s.results.insert f.name v }
    (p.dependents f.name)
  refine (h.counted.deliver v env' hsound hpicked).reached ?_ ?_
  · unfold Progress.deliver
    rw [hresults, henv]
    refine Graph.execute_append_eq_ok_iff.2 ⟨_, h.ran, ?_⟩
    refine Graph.execute_cons_eq_ok_iff.2 ⟨_, ?_, rfl⟩
    rw [h.runTask_eq hmem, hperformed]
    rfl
  -- A task in flight has its inputs from before the report, or it has only been started by it.
  · intro f' hflies d hneed
    unfold Progress.deliver at hflies ⊢
    rw [hinFlight] at hflies
    rw [hresults]
    rcases List.mem_append.1 hflies with hstays | hstarts
    · have hmem' : f' ∈ s.inFlight := by
        rw [hflights]
        exact List.perm_middle.mem_iff.2 (List.mem_cons_of_mem _ hstays)
      have hearly := (h.counted.ready hsound hmem').2.mem_of_before (.direct hneed)
      have hother : d ≠ f.name := fun hsame => hfresh (hsame ▸ hearly)
      rw [Table.get?_insert, if_neg hother]
      exact h.inputs f' hmem' d hneed
    · obtain ⟨n, _, rfl⟩ := List.mem_map.1 hstarts
      exact Plan.get?_inputsOf hneed

end Progress

/-- A run of tasks comes to what some legal list of them comes to: the results and the
environment of all the tasks, or an error. -/
def Graph.Outcome (evaluator : Evaluator) (g : Graph) (env : Environment) (nodes : List String)
    (results : Except RunError (Table Value)) (env' : Environment) : Prop :=
  match results with
  | .ok results => ∃ order, g.Legal order ∧ (∀ n, n ∈ order ↔ n ∈ nodes) ∧
      g.execute evaluator (.start env) order = .ok ⟨results, env'⟩
  | .error _ => ∃ order, g.Legal order ∧ (∀ n ∈ order, n ∈ nodes) ∧
      ∀ s, g.execute evaluator (.start env) order ≠ .ok s

namespace Progress

variable {p : Plan} {evaluator : Evaluator} {env : Environment} {done : List String}
variable {s : Progress}

/-- Whatever order the tasks report in, the run is one of a legal list. -/
theorem Reached.outcome {reports : ReportOrder} {step left : Nat} (hsound : p.Sound)
    (h : s.Reached evaluator p env done []) (hcount : done.length + left = p.nodes.length) :
    p.graph.Outcome evaluator env p.nodes (s.finish evaluator p reports step left).1
      (s.finish evaluator p reports step left).2 := by
  -- On the reports that are still missing; the run ends early with a task that fails in any legal
  -- order.
  induction left generalizing s done step with
  | zero => exact ⟨done, h.legal, h.counted.complete (Nat.le_of_eq hcount.symm), h.ran⟩
  | succ left ih =>
    have hshort : done.length < p.nodes.length := by omega
    obtain ⟨f, others, hpicked⟩ := h.counted.exists_pick hsound hshort (reports step)
    have hmem : f ∈ s.inFlight := mem_of_pick? hpicked
    unfold finish
    rw [hpicked]
    dsimp only
    cases hperformed : perform evaluator p s.env f with
    | error e =>
      obtain ⟨hnode, hlegal⟩ := h.counted.ready hsound hmem
      have hinside := List.forall_mem_append.2 ⟨h.inside, List.forall_mem_singleton.2 hnode⟩
      refine ⟨done ++ [f.name], hlegal, hinside, ?_⟩
      intro s' hran
      obtain ⟨m, hran', hlast⟩ := Graph.execute_append_eq_ok_iff.1 hran
      cases h.ran.symm.trans hran'
      obtain ⟨_, hlast, _⟩ := Graph.execute_cons_eq_ok_iff.1 hlast
      rw [h.runTask_eq hmem, hperformed] at hlast
      cases hlast
    | ok r =>
      obtain ⟨v, env'⟩ := r
      refine ih (h.deliver hsound hpicked hperformed) ?_
      rw [List.length_append, List.length_singleton]
      omega

/-- A sound plan runs as some legal list of its tasks. -/
theorem outcome_of_sound (hsound : p.Sound) (reports : ReportOrder) :
    p.graph.Outcome evaluator env p.nodes
      ((initial p env).finish evaluator p reports 0 p.nodes.length).1
      ((initial p env).finish evaluator p reports 0 p.nodes.length).2 :=
  (reached_initial hsound).outcome hsound (Nat.zero_add _)

end Progress

end ColumnFlow
