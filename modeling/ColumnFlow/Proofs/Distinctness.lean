import ColumnFlow.Proofs.Editing
import ColumnFlow.Proofs.Lookups

/-!
# Names without repetition

From one supply no name is handed out twice, whatever the categories are and whether the names are
drawn one by one or by compiling expressions. A compilation that fails leaves behind the numbers it
has drawn, so that its names are not handed out again either. How a category is numbered depends on
nothing but the names drawn since the last reset.
-/

namespace ColumnFlow.NameSupply

/-! ## Drawing names -/

/-- The names of some categories, drawn in turn. -/
def draw (s : NameSupply) : List String → List String
  | [] => []
  | category :: categories => (s.next category).1 :: (s.next category).2.draw categories

/-- Each name has the number that its category has come to: what was counted before, and one for
each earlier draw of the same category. -/
theorem getElem?_draw (s : NameSupply) (categories : List String) (i : Nat) :
    (s.draw categories)[i]? = categories[i]?.map fun category =>
      name category (s.count category + (categories.take i).count category) := by
  induction categories generalizing s i with
  | nil => rfl
  | cons first rest ih =>
    cases i with
    | zero => rfl
    | succ i =>
      rw [draw, List.getElem?_cons_succ, List.getElem?_cons_succ, List.take_succ_cons, ih]
      refine congrArg (rest[i]?.map ·) (funext fun category => ?_)
      rw [count_next, List.count_cons]
      by_cases hsame : category = first
      · subst hsame
        rw [if_pos rfl, beq_self_eq_true, if_pos rfl]
        congr 1
        omega
      · rw [if_neg hsame, if_neg (by simpa using Ne.symm hsame), Nat.add_zero]

/-! ## Uses of a supply -/

/-- What names are drawn for: a task of the caller's, or the tasks of an expression. -/
inductive Use where
  | next (category : String)
  | build (e : Expr) (registry : Registry)

/-- The names that a use hands out. A compilation that fails hands out none. -/
def Use.names (s : NameSupply) : Use → List String
  | .next category => [(s.next category).1]
  | .build e registry =>
    match (e.buildWith s registry).1 with
    | .ok (g, _) => g.names
    | .error _ => []

/-- The supply that a use leaves. -/
def Use.leave (s : NameSupply) : Use → NameSupply
  | .next category => (s.next category).2
  | .build e registry => (e.buildWith s registry).2

/-- The names that uses hand out in turn, together for each of them. -/
def handOut (s : NameSupply) : List Use → List (List String)
  | [] => []
  | u :: us => u.names s :: (u.leave s).handOut us

variable {s : NameSupply} {n : String}

theorem handOut_next (s : NameSupply) (categories : List String) :
    (s.handOut (categories.map .next)).flatten = s.draw categories := by
  induction categories generalizing s with
  | nil => rfl
  | cons category categories ih =>
    rw [List.map_cons, handOut, List.flatten_cons, draw]
    exact congrArg _ (ih _)

/-- The names of one use are drawn while it lasts, and each of them once. -/
theorem Use.drawn (u : Use) (s : NameSupply) : s.Grows (u.leave s) ∧ (u.names s).Nodup ∧
    ∀ n ∈ u.names s, s.Drawn (u.leave s) n := by
  cases u with
  | next category =>
    exact ⟨grows_next, List.nodup_singleton _, List.forall_mem_singleton.2 drawn_next⟩
  | build e registry =>
    obtain ⟨s', hgrows, hanswer⟩ := buildWith_answers e s registry
    dsimp only [leave, names]
    cases habsent : registry.missing? e.lookups with
    | none =>
      rw [habsent] at hanswer
      obtain ⟨g, output, hbuilt, -, hdrawn⟩ := hanswer
      rw [hbuilt]
      exact ⟨hgrows, g.tasks.nodup, hdrawn⟩
    | some name =>
      rw [habsent] at hanswer
      rw [hanswer]
      exact ⟨hgrows, List.nodup_nil, List.forall_mem_nil _⟩

/-- Whatever is handed out has been drawn since the start. -/
theorem exists_drawn_of_mem_handOut {us : List Use} (hmem : n ∈ (s.handOut us).flatten) :
    ∃ s', s.Drawn s' n := by
  induction us generalizing s with
  | nil => cases hmem
  | cons u us ih =>
    obtain ⟨hgrows, -, hdrawn⟩ := u.drawn s
    rcases List.mem_append.1 hmem with hfirst | hlater
    · exact ⟨_, hdrawn n hfirst⟩
    · obtain ⟨s', hdrawn'⟩ := ih hlater
      exact ⟨s', hdrawn'.mono_left hgrows⟩

theorem nodup_handOut (s : NameSupply) (us : List Use) : (s.handOut us).flatten.Nodup := by
  induction us generalizing s with
  | nil => exact List.nodup_nil
  | cons u us ih =>
    obtain ⟨-, honce, hdrawn⟩ := u.drawn s
    refine List.nodup_append.2 ⟨honce, ih _, fun n hfirst m hlater => ?_⟩
    obtain ⟨s', hdrawn'⟩ := exists_drawn_of_mem_handOut hlater
    exact (hdrawn n hfirst).ne hdrawn'

/-- Names that are drawn from one supply are pairwise different, and so are the names of tasks in
all graphs that are compiled with it, in between and after compilations that fail. After a reset
each category is numbered by its draws alone, so that the same draws give the same names. -/
theorem names_never_collide :
    (∀ (s : NameSupply) (categories : List String), (s.draw categories).Nodup) ∧
    (∀ (s : NameSupply) (categories : List String) (i : Nat),
      (s.reset.draw categories)[i]? = categories[i]?.map fun category =>
        name category ((categories.take i).count category)) ∧
    (∀ (s t : NameSupply) (categories : List String),
      s.reset.draw categories = t.reset.draw categories) ∧
    ∀ (s : NameSupply) (uses : List Use), (s.handOut uses).flatten.Nodup := by
  have hnumbers (s : NameSupply) (categories : List String) (i : Nat) :
      (s.reset.draw categories)[i]? = categories[i]?.map fun category =>
        name category ((categories.take i).count category) := by
    rw [getElem?_draw]
    refine congrArg (categories[i]?.map ·) (funext fun category => ?_)
    rw [show s.reset.count category = 0 from rfl, Nat.zero_add]
  refine ⟨fun s categories => ?_, hnumbers, fun s t categories => ?_, nodup_handOut⟩
  · rw [← handOut_next]
    exact nodup_handOut s _
  · exact List.ext_getElem? fun i => (hnumbers s categories i).trans (hnumbers t categories i).symm

/-- Categories that end like names, and a name that was drawn by a compilation that failed. -/
example :
    fresh.draw ["f", "f-0", "", "f", "-0", ""] = ["f-0", "f-0-0", "-0", "f-1", "-0-0", "-1"] ∧
    fresh.handOut [.build (.call "f" [.literal (.bool true)] none) .empty, .next "constant"] =
      [[], ["constant-0"]] := by
  decide

end ColumnFlow.NameSupply
