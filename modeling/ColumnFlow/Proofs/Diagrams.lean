import Mathlib.Data.List.Nodup
import ColumnFlow.Graph.Mermaid
import ColumnFlow.Proofs.Cycles
import ColumnFlow.Proofs.Numbers.Numerals

/-!
# Diagrams against graphs

The lines of a diagram are read back: which edges they show, and how these are drawn. There is an
edge from one task to another exactly if the second waits for the first. A dotted edge says that a
name is listed among the tasks that the target only comes after, whether or not the target also
refers to it; so dotted edges carry no result, and the drawing can be trusted, exactly where no task
is listed for both.
-/

namespace ColumnFlow

namespace Mermaid

/-! ## Lines of a text -/

/-- The lines of a text. What stands behind the last line break is the last one. -/
def lines (text : String) : List String := (text.toList.splitOn '\n').map String.ofList

/-- There is no line break in the text. -/
def OneLine (text : String) : Prop := '\n' ∉ text.toList

instance (text : String) : Decidable (OneLine text) :=
  inferInstanceAs (Decidable ('\n' ∉ text.toList))

/-- The lines of joined lines are those lines, with an empty one behind the last. -/
theorem lines_join {texts : List String} (hsingle : ∀ t ∈ texts, OneLine t) :
    lines (String.join (texts.map (· ++ "\n"))) = texts ++ [""] := by
  induction texts with
  | nil => rfl
  | cons t ts ih =>
    obtain ⟨hfirst, hrest⟩ := List.forall_mem_cons.1 hsingle
    have hsplit : (String.join ((t :: ts).map (· ++ "\n"))).toList =
        t.toList ++ '\n' :: (String.join (ts.map (· ++ "\n"))).toList := by
      simp
    have htail := ih hrest
    unfold lines at htail ⊢
    rw [hsplit, List.splitOn_append_cons_self, List.splitOn_eq_singleton hfirst, List.map_append,
      htail, List.map_singleton, String.ofList_toList]
    rfl

theorem oneLine_append {s t : String} : OneLine (s ++ t) ↔ OneLine s ∧ OneLine t := by
  unfold OneLine
  rw [String.toList_append, List.mem_append, not_or]

theorem oneLine_toString (n : Nat) : OneLine (toString n) := Numeral.not_mem_toString (by decide) n

/-! ## Lines of tasks -/

/-- A label with its quotes written in a form that does not end it. -/
def escaped (s : String) : String := String.ofList (s.toList.flatMap labelChar)

/-- The line of a task, without its break. -/
def nodeText (index : Nat) (label : String) : String :=
  "    " ++ toString index ++ "[\"" ++ label ++ "\"]"

/-- The line of a task is its number and its escaped label. -/
theorem nodeLine_eq (index : Nat) (name : String) (t : Task) :
    nodeLine index name t = nodeText index (escaped (name ++ ": " ++ t.label)) ++ "\n" := by
  apply String.toList_inj.1
  simp [nodeLine, nodeText, label, escaped]

/-- An escaped label has no quote left. -/
theorem quote_not_mem_escaped (s : String) : '"' ∉ (escaped s).toList := by
  unfold escaped
  rw [String.toList_ofList, List.mem_flatMap]
  rintro ⟨c, -, hmem⟩
  unfold labelChar at hmem
  split at hmem
  · exact absurd hmem (by decide)
  · next hother => exact hother (List.mem_singleton.1 hmem).symm

theorem oneLine_escaped {s : String} (hsingle : OneLine s) : OneLine (escaped s) := by
  unfold OneLine escaped
  rw [String.toList_ofList, List.mem_flatMap]
  rintro ⟨c, hinside, hmem⟩
  unfold labelChar at hmem
  split at hmem
  · exact absurd hmem (by decide)
  · exact hsingle (List.mem_singleton.1 hmem ▸ hinside)

theorem oneLine_nodeText {index : Nat} {label : String} (hsingle : OneLine label) :
    OneLine (nodeText index label) := by
  unfold nodeText
  simp only [oneLine_append]
  exact ⟨⟨⟨⟨by decide, oneLine_toString index⟩, by decide⟩, hsingle⟩, by decide⟩

/-! ## Lines of edges -/

/-- The line of an edge, without its break. -/
def Edge.text (e : Edge) : String :=
  "    " ++ toString e.source ++ " " ++ e.stroke.arrow ++ " " ++ toString e.target

theorem Edge.oneLine_text (e : Edge) : OneLine e.text := by
  unfold text
  have harrow : OneLine e.stroke.arrow := by cases e.stroke <;> decide
  simp only [oneLine_append]
  exact ⟨⟨⟨⟨⟨by decide, oneLine_toString _⟩, by decide⟩, harrow⟩, by decide⟩, oneLine_toString _⟩

/-- The words of an edge's line: nothing between the blanks in front, then the two places with the
arrow between them. -/
theorem Edge.words_text (e : Edge) : e.text.toList.splitOn ' ' =
    [[], [], [], [], (toString e.source).toList, e.stroke.arrow.toList,
      (toString e.target).toList] := by
  have harrow : ' ' ∉ e.stroke.arrow.toList := by cases e.stroke <;> decide
  have hsource := Numeral.not_mem_toString (by decide : ' '.isDigit = false) e.source
  have htarget := Numeral.not_mem_toString (by decide : ' '.isDigit = false) e.target
  have hbetween : e.text.toList = [' '].intercalate [[], [], [], [], (toString e.source).toList,
      e.stroke.arrow.toList, (toString e.target).toList] := by
    simp [text, List.intercalate, List.intersperse]
  rw [hbetween, List.splitOn_intercalate _ _ (List.cons_ne_nil _ _)]
  simp only [List.forall_mem_cons, List.not_mem_nil, not_false_eq_true, false_implies,
    implies_true, hsource, htarget, harrow, and_self]

theorem Stroke.arrow_inj {s s' : Stroke} (hsame : s.arrow = s'.arrow) : s = s' := by
  cases s <;> cases s' <;> first | rfl | exact absurd hsame (by decide)

/-- An edge can be read off its line. -/
theorem Edge.text_inj {e e' : Edge} (hsame : e.text = e'.text) : e = e' := by
  have hwords := congrArg (fun t : String => t.toList.splitOn ' ') hsame
  simp only [words_text, List.cons.injEq, String.toList_inj, true_and, and_true,
    Numeral.toString_inj] at hwords
  obtain ⟨hsource, harrow, htarget⟩ := hwords
  obtain ⟨i, j, stroke⟩ := e
  obtain ⟨i', j', stroke'⟩ := e'
  obtain rfl : i = i' := hsource
  obtain rfl : j = j' := htarget
  exact congrArg (Edge.mk i j) (Stroke.arrow_inj harrow)

/-! ## Edges of a graph -/

variable {g : Graph} {e : Edge} {i j : Nat} {source : String} {t : Task}

/-- The two places are those of a name and of a task of the graph. -/
def Places (g : Graph) (i j : Nat) (source : String) (t : Task) : Prop :=
  g.names[i]? = some source ∧ g.tasks.values[j]? = some t

/-- What an edge of each kind says of its target: that it refers to the source, or that it only
comes after it. -/
def Stroke.Shows (t : Task) (source : String) : Stroke → Prop
  | .solid => source ∈ t.refs
  | .dotted => source ∈ t.after ∧ source ∉ t.refs

instance (t : Task) (source : String) : (stroke : Stroke) → Decidable (stroke.Shows t source)
  | .solid => inferInstanceAs (Decidable (source ∈ t.refs))
  | .dotted => inferInstanceAs (Decidable (source ∈ t.after ∧ source ∉ t.refs))

/-- The index of a key is its place among the keys. -/
theorem indexOf?_eq_some_iff {α : Type} {table : Table α} {k : String} {i : Nat} :
    table.indexOf? k = some i ↔ table.keys[i]? = some k := by
  unfold Table.indexOf?
  rw [List.idxOf?_eq_some_iff, List.getElem?_eq_some_iff]
  constructor
  · rintro ⟨hinside, hfound, -⟩
    exact ⟨hinside, hfound⟩
  · rintro ⟨hinside, hfound⟩
    refine ⟨hinside, hfound, fun j hbefore hsame => ?_⟩
    have hnodup : table.keys.Nodup := table.nodup
    have hplace := (List.Nodup.getElem_inj_iff hnodup).1 (hsame.trans hfound.symm)
    exact absurd hplace (Nat.ne_of_lt hbefore)

/-- An edge is drawn for each dependency that is in the graph: dotted if the target is listed to
come after the source, and solid otherwise. -/
theorem mem_edges_iff : e ∈ edges g ↔ ∃ source t, Places g e.source e.target source t ∧
    source ∈ t.dependencies ∧ e.stroke = if source ∈ t.after then .dotted else .solid := by
  unfold edges
  rw [List.mem_flatMap]
  constructor
  · rintro ⟨entry, hmem, hdrawn⟩
    obtain ⟨source, hneeded, hfound⟩ := List.mem_filterMap.1 hdrawn
    obtain ⟨i, hplace, rfl⟩ := Option.map_eq_some_iff.1 hfound
    exact ⟨source, entry.1, ⟨indexOf?_eq_some_iff.1 hplace, List.mem_zipIdx_iff_getElem?.1 hmem⟩,
      hneeded, rfl⟩
  · rintro ⟨source, t, ⟨hplace, htarget⟩, hneeded, hstroke⟩
    refine ⟨(t, e.target), List.mem_zipIdx_iff_getElem?.2 htarget, List.mem_filterMap.2 ?_⟩
    refine ⟨source, hneeded, Option.map_eq_some_iff.2 ⟨e.source, indexOf?_eq_some_iff.2 hplace, ?_⟩⟩
    rw [← hstroke]

theorem text_mem_iff : e.text ∈ (edges g).map Edge.text ↔ e ∈ edges g := by
  rw [List.mem_map]
  constructor
  · rintro ⟨e', hmem, hsame⟩
    exact Edge.text_inj hsame ▸ hmem
  · exact fun hmem => ⟨e, hmem, rfl⟩

/-- The places of an edge determine what it joins. -/
theorem Places.text_mem_iff (hplaces : Places g i j source t) (stroke : Stroke) :
    Edge.text ⟨i, j, stroke⟩ ∈ (edges g).map Edge.text ↔
      source ∈ t.dependencies ∧ stroke = if source ∈ t.after then .dotted else .solid := by
  rw [Mermaid.text_mem_iff, mem_edges_iff]
  constructor
  · rintro ⟨source', t', ⟨hplace, htarget⟩, hdrawn⟩
    cases hplaces.1.symm.trans hplace
    cases hplaces.2.symm.trans htarget
    exact hdrawn
  · exact fun hdrawn => ⟨source, t, hplaces, hdrawn⟩

/-- An edge is drawn exactly where there is a dependency. -/
theorem Places.exists_text_mem_iff (hplaces : Places g i j source t) :
    (∃ stroke, Edge.text ⟨i, j, stroke⟩ ∈ (edges g).map Edge.text) ↔ source ∈ t.dependencies := by
  constructor
  · rintro ⟨stroke, hdrawn⟩
    exact ((hplaces.text_mem_iff stroke).1 hdrawn).1
  · exact fun hneeded => ⟨_, (hplaces.text_mem_iff _).2 ⟨hneeded, rfl⟩⟩

/-- An edge is dotted exactly if its task is among those to come after. -/
theorem Places.dotted_mem_iff (hplaces : Places g i j source t) :
    Edge.text ⟨i, j, .dotted⟩ ∈ (edges g).map Edge.text ↔ source ∈ t.after := by
  rw [hplaces.text_mem_iff, Task.mem_dependencies_iff]
  by_cases hlater : source ∈ t.after <;> simp [hlater]

/-- An edge is solid exactly if its task is referred to and not among those to come after. -/
theorem Places.solid_mem_iff (hplaces : Places g i j source t) :
    Edge.text ⟨i, j, .solid⟩ ∈ (edges g).map Edge.text ↔ source ∈ t.refs ∧ source ∉ t.after := by
  rw [hplaces.text_mem_iff, Task.mem_dependencies_iff]
  by_cases hlater : source ∈ t.after <;> simp [hlater]

end Mermaid

namespace Graph

open Mermaid

variable {g : Graph}

/-- Neither a name nor a label is broken into lines. -/
def Unbroken (g : Graph) : Prop :=
  ∀ n t, g.get? n = some t → OneLine n ∧ OneLine t.label

/-- No task of the graph comes after another one that it refers to. -/
def Apart (g : Graph) : Prop :=
  ∀ source ∈ g.names, ∀ t ∈ g.tasks.values, source ∈ t.refs → source ∉ t.after

instance (g : Graph) : Decidable g.Apart := inferInstanceAs
  (Decidable (∀ source ∈ g.names, ∀ t ∈ g.tasks.values, source ∈ t.refs → source ∉ t.after))

theorem unbroken_iff :
    g.Unbroken ↔ ∀ e ∈ g.tasks.entries, OneLine e.1 ∧ OneLine e.2.label := by
  constructor
  · exact fun hunbroken e hentry => hunbroken e.1 e.2 ((g.tasks.get?_eq_some_iff e.1 e.2).2 hentry)
  · exact fun hsingle n t hget => hsingle (n, t) ((g.tasks.get?_eq_some_iff n t).1 hget)

/-- The lines of the tasks in insertion order. -/
def nodeTexts (g : Graph) : List String :=
  g.tasks.entries.zipIdx.map fun e => nodeText e.2 (escaped (e.1.1 ++ ": " ++ e.1.2.label))

/-- A diagram is its heading, its tasks and its edges, line by line. -/
theorem mermaid_eq (g : Graph) : g.mermaid = String.join
    (("graph LR" :: (g.nodeTexts ++ (edges g).map Edge.text)).map (· ++ "\n")) := by
  have hnodes : (g.tasks.entries.zipIdx.map fun e => nodeLine e.2 e.1.1 e.1.2) =
      g.nodeTexts.map (· ++ "\n") := by
    rw [nodeTexts, List.map_map]
    exact List.map_congr_left fun e _ => nodeLine_eq e.2 e.1.1 e.1.2
  have hdrawn : (edges g).map Edge.line = ((edges g).map Edge.text).map (· ++ "\n") := by
    rw [List.map_map]
    rfl
  rw [List.map_cons, List.map_append, ← hnodes, ← hdrawn, String.join_cons, String.join_append,
    ← String.append_assoc]
  rfl

theorem Unbroken.lines_mermaid (hunbroken : g.Unbroken) : lines g.mermaid =
    "graph LR" :: (g.nodeTexts ++ (edges g).map Edge.text) ++ [""] := by
  rw [mermaid_eq]
  refine lines_join (List.forall_mem_cons.2 ⟨by decide, List.forall_mem_append.2 ⟨?_, ?_⟩⟩)
  · intro line hmem
    obtain ⟨⟨⟨n, t⟩, i⟩, hentry, rfl⟩ := List.mem_map.1 hmem
    obtain ⟨hname, hlabel⟩ := unbroken_iff.1 hunbroken (n, t) (List.fst_mem_of_mem_zipIdx hentry)
    refine oneLine_nodeText (oneLine_escaped ?_)
    exact oneLine_append.2 ⟨oneLine_append.2 ⟨hname, by decide⟩, hlabel⟩
  · intro line hmem
    obtain ⟨e, -, rfl⟩ := List.mem_map.1 hmem
    exact e.oneLine_text

/-- Each task has the line of its place. -/
theorem getElem?_nodeTexts {i : Nat} {n : String} {t : Task}
    (hget : g.tasks.entries[i]? = some (n, t)) :
    g.nodeTexts[i]? = some (nodeText i (escaped (n ++ ": " ++ t.label))) := by
  rw [nodeTexts, List.getElem?_map, List.getElem?_zipIdx, hget]
  simp

/-- The edges are drawn as the dependencies are exactly if no task comes after one that it refers
to. -/
theorem shows_iff_apart (g : Graph) : (∀ i j source t, Places g i j source t → ∀ stroke,
    (Edge.text ⟨i, j, stroke⟩ ∈ (edges g).map Edge.text ↔ stroke.Shows t source)) ↔ g.Apart := by
  constructor
  · intro hshown source hknown t hinside href hlater
    obtain ⟨i, hplace⟩ := List.mem_iff_getElem?.1 hknown
    obtain ⟨j, htarget⟩ := List.mem_iff_getElem?.1 hinside
    have hplaces : Places g i j source t := ⟨hplace, htarget⟩
    have hsolid := (hshown i j source t hplaces .solid).2 href
    exact (hplaces.solid_mem_iff.1 hsolid).2 hlater
  · intro hapart i j source t hplaces stroke
    have hdistinct := hapart source (List.mem_of_getElem? hplaces.1) t
      (List.mem_of_getElem? hplaces.2)
    cases stroke with
    | solid =>
      rw [hplaces.solid_mem_iff]
      exact ⟨And.left, fun href => ⟨href, hdistinct href⟩⟩
    | dotted =>
      rw [hplaces.dotted_mem_iff]
      exact ⟨fun hlater => ⟨hlater, fun href => hdistinct href hlater⟩, And.left⟩

/-- The lines of a diagram are the header, one line for each task in insertion order with its place
and its label, in which no quote is left, and lines of edges between places of tasks. There is an
edge exactly if its target waits for its source, and it is dotted exactly if the target is listed
to come after the source. Hence solid edges are those of results that are asked for, and dotted ones
those of an order alone, exactly if no task is listed to come after one that it refers to. -/
theorem mermaid_shows_dependencies (g : Graph) (hunbroken : g.Unbroken) :
    ∃ nodes drawn : List String, lines g.mermaid = "graph LR" :: (nodes ++ drawn) ++ [""] ∧
      nodes.length = g.size ∧
      (∀ i n t, g.tasks.entries[i]? = some (n, t) →
        nodes[i]? = some (nodeText i (escaped (n ++ ": " ++ t.label))) ∧
        '"' ∉ (escaped (n ++ ": " ++ t.label)).toList) ∧
      (∀ line ∈ drawn, ∃ i j stroke source t,
        line = Edge.text ⟨i, j, stroke⟩ ∧ Places g i j source t) ∧
      (∀ i j source t, Places g i j source t →
        ((∃ stroke, Edge.text ⟨i, j, stroke⟩ ∈ drawn) ↔ source ∈ t.dependencies) ∧
        (Edge.text ⟨i, j, .solid⟩ ∈ drawn ↔ source ∈ t.refs ∧ source ∉ t.after) ∧
        (Edge.text ⟨i, j, .dotted⟩ ∈ drawn ↔ source ∈ t.after)) ∧
      ((∀ i j source t, Places g i j source t → ∀ stroke,
        (Edge.text ⟨i, j, stroke⟩ ∈ drawn ↔ stroke.Shows t source)) ↔ g.Apart) := by
  refine ⟨g.nodeTexts, (edges g).map Edge.text, hunbroken.lines_mermaid, ?_, ?_, ?_, ?_,
    shows_iff_apart g⟩
  · rw [nodeTexts, List.length_map, List.length_zipIdx]
    rfl
  · exact fun i n t hget => ⟨getElem?_nodeTexts hget, quote_not_mem_escaped _⟩
  · intro line hmem
    obtain ⟨e, hdrawn, rfl⟩ := List.mem_map.1 hmem
    obtain ⟨source, t, hplaces, -⟩ := mem_edges_iff.1 hdrawn
    exact ⟨_, _, e.stroke, source, t, rfl, hplaces⟩
  · exact fun i j source t hplaces =>
      ⟨hplaces.exists_text_mem_iff, hplaces.solid_mem_iff, hplaces.dotted_mem_iff⟩

/-- A reference inside a tuple, one that is repeated, and an order that is added later. -/
theorem mermaid_shows_dependencies_ordered :
    let g₁ := ((Edit.add "a" (.eval "x == \"u\"" ["x"])).make .empty).2
    let g₂ := ((Edit.add "b" (.of (.eval "y") [.tuple [.absent, .ref "a"], .ref "a"])).make g₁).2
    let g₃ := ((Edit.add "c" (.commit "z" "b")).make g₂).2
    let g := ((Edit.appendDependency "c" "a").make g₃).2
    g.Built ∧ g.Unbroken ∧ g.Apart ∧ ∃ nodes drawn,
      lines g.mermaid = "graph LR" :: (nodes ++ drawn) ++ [""] ∧
      nodes[0]? = some "    0[\"a: x == #quot;u#quot;\"]" ∧
      "    0 --> 1" ∈ drawn ∧ "    0 -.-> 2" ∈ drawn ∧ "    0 --> 2" ∉ drawn := by
  intro g₁ g₂ g₃ g
  have hbuilt : g.Built :=
    .edit _ (.edit _ (.edit _ (.edit _ .empty nofun) nofun) nofun) nofun
  have hmade : g = ⟨.ofList [("a", .eval "x == \"u\"" ["x"]),
      ("b", .of (.eval "y") [.tuple [.absent, .ref "a"], .ref "a"]),
      ("c", ⟨.commit "z", [.ref "b"], ["a"]⟩)], some "a", some "c"⟩ := by
    have hfree : g₃.dependsOn "a" "c" = false := dependsOn_eq_false_of_root rfl (by decide)
    refine Edit.make_of_outcome ?_
    rw [Edit.outcome, appendDependency, hfree]
    rfl
  have hunbroken : g.Unbroken := by
    rw [hmade, unbroken_iff]
    decide
  have hapart : g.Apart := by
    rw [hmade]
    decide
  obtain ⟨nodes, drawn, hshown, -, hlabels, -, -, hexact⟩ := mermaid_shows_dependencies g hunbroken
  have hfirst : g.tasks.entries[0]? = some ("a", .eval "x == \"u\"" ["x"]) := by rw [hmade]; rfl
  have hinto : Places g 0 1 "a" (.of (.eval "y") [.tuple [.absent, .ref "a"], .ref "a"]) := by
    rw [hmade]
    exact ⟨rfl, rfl⟩
  have hlater : Places g 0 2 "a" ⟨.commit "z", [.ref "b"], ["a"]⟩ := by
    rw [hmade]
    exact ⟨rfl, rfl⟩
  have hedges := hexact.2 hapart
  refine ⟨hbuilt, hunbroken, hapart, nodes, drawn, hshown, (hlabels 0 _ _ hfirst).1, ?_, ?_, ?_⟩
  · exact (hedges 0 1 _ _ hinto .solid).2 (by decide)
  · exact (hedges 0 2 _ _ hlater .dotted).2 (by decide)
  · exact fun hsolid => absurd ((hedges 0 2 _ _ hlater .solid).1 hsolid) (by decide)

/-- An order that is added between a task and one whose result it is given turns the edge of the
result into a dotted one. -/
theorem dotted_edge_of_result :
    let g₁ := ((Edit.add "a" (.constant (.bool true))).make .empty).2
    let g₂ := ((Edit.add "b" (.commit "x" "a")).make g₁).2
    let g := ((Edit.appendDependency "b" "a").make g₂).2
    g.Built ∧ g.Unbroken ∧ (∃ t, Places g 0 1 "a" t ∧ "a" ∈ t.refs) ∧
      "    0 --> 1" ∉ lines g.mermaid ∧ "    0 -.-> 1" ∈ lines g.mermaid := by
  intro g₁ g₂ g
  have hbuilt : g.Built := .edit _ (.edit _ (.edit _ .empty nofun) nofun) nofun
  have hmade : g = ⟨.ofList [("a", .constant (.bool true)),
      ("b", ⟨.commit "x", [.ref "a"], ["a"]⟩)], some "a", some "b"⟩ := by
    have hfree : g₂.dependsOn "a" "b" = false := dependsOn_eq_false_of_root rfl (by decide)
    refine Edit.make_of_outcome ?_
    rw [Edit.outcome, appendDependency, hfree]
    rfl
  have hunbroken : g.Unbroken := by
    rw [hmade, unbroken_iff]
    decide
  rw [hmade] at hbuilt hunbroken ⊢
  exact ⟨hbuilt, hunbroken, ⟨⟨.commit "x", [.ref "a"], ["a"]⟩, ⟨rfl, rfl⟩, by decide⟩,
    by decide +kernel, by decide +kernel⟩

end Graph

end ColumnFlow
