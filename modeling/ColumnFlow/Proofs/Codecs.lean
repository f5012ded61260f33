import ColumnFlow.Codec.Argument
import ColumnFlow.Codec.Value
import ColumnFlow.Proofs.Codecs.Variants

/-!
# Codecs that lose nothing

What is written is read back as what it was, and what was read is read back once it is written
again. The variants of a type are told apart by their names and flat arrays from nested ones by
their containers. What was written is read in the same way ahead of its name and behind it.
-/

namespace ColumnFlow

open Codec

/-! ## Arrays -/

namespace Jagged

variable {room : Nat} {a : Jagged} {j : Json}

/-- The lengths of entries on all levels. -/
def allCounts : Jagged → List Nat
  | .flat _ => []
  | .nested counts content => counts ++ content.allCounts

theorem isJson_toJson (a : Jagged) : a.toJson.IsJson := by
  induction a with
  | flat leaves => exact Json.isJson_array (List.forall_mem_map.2 fun x _ => Json.isJson_ofFloat x)
  | nested counts content ih =>
    have hlengths : (Json.array (counts.map Json.ofNat)).IsJson :=
      Json.isJson_array (List.forall_mem_map.2 fun n _ => Json.isJson_ofNat n)
    exact Json.isJson_ofMembers (List.forall_mem_cons.2
      ⟨hlengths, List.forall_mem_singleton.2 ih⟩)

theorem nesting_flat (leaves : List Float) : (flat leaves).toJson.nesting = 1 := by
  rw [toJson, Json.nesting, Json.deepest_numbers]

theorem nesting_nested (counts : List Nat) (content : Jagged) :
    (nested counts content).toJson.nesting = max 1 content.toJson.nesting + 1 := by
  simp [toJson, Json.ofMembers, Json.nesting, Json.deepestMember, Json.deepest_naturals]

theorem one_le_nesting (a : Jagged) : 1 ≤ a.toJson.nesting := by
  cases a with
  | flat leaves => exact (nesting_flat leaves).ge
  | nested counts content =>
    rw [nesting_nested]
    exact Nat.le_add_left _ _

/-- Both parts of a nested array are one container further in. -/
theorem exists_room_nested {counts : List Nat} {content : Jagged}
    (hfits : (nested counts content).toJson.nesting ≤ room) :
    ∃ inner, room = inner + 1 ∧ 1 ≤ inner ∧ content.toJson.nesting ≤ inner := by
  rw [nesting_nested] at hfits
  obtain ⟨inner, rfl⟩ := Nat.exists_eq_add_of_le' (Nat.le_trans (Nat.le_add_left 1 _) hfits)
  exact ⟨inner, rfl, max_le_iff.1 (Nat.le_of_succ_le_succ hfits)⟩

/-- What is legible of a nested array is its counts and what its content needs. -/
theorem legible_nested {counts : List Nat} {content : Jagged}
    (hlegible : Legible (nested counts content).leaves (nested counts content).allCounts) :
    (∀ n ∈ counts, n < wordLimit) ∧ Legible content.leaves content.allCounts := by
  obtain ⟨hlengths, hinner⟩ := List.forall_mem_append.1 hlegible.counts
  exact ⟨hlengths, hlegible.numbers, hinner⟩

theorem member?_counts (lengths content : Json) : member? "counts"
    [(some "counts", lengths), (some "content", content)] = some lengths := by
  simp [member?, membersOf]

theorem member?_content (lengths content : Json) : member? "content"
    [(some "counts", lengths), (some "content", content)] = some content := by
  simp [member?, membersOf]

/-- A legible array is read back, given room for its nesting. -/
theorem ofJsonWithin?_toJson (hlegible : Legible a.leaves a.allCounts)
    (hfits : a.toJson.nesting ≤ room) : ofJsonWithin? room a.toJson = some a := by
  induction a generalizing room with
  | flat leaves =>
    have hall : (leaves.map Json.ofFloat).mapM float? = some leaves :=
      mapM_map_eq_some hlegible.numbers
    rw [toJson, ofJsonWithin?, hall]
    rfl
  | nested counts content ih =>
    obtain ⟨hlengths, hinside⟩ := legible_nested hlegible
    obtain ⟨inner, rfl, -, hheld⟩ := exists_room_nested hfits
    have hnaturals : list? natural? (.array (counts.map .ofNat)) = some counts :=
      mapM_map_eq_some fun n hmem => Json.Number.toNat?_ofNat (hlengths n hmem)
    rw [toJson, Json.ofMembers, ofJsonWithin?]
    simp only [List.map_cons, List.map_nil, member?_counts, member?_content, hnaturals,
      ih hinside hheld, Option.bind_eq_bind, Option.bind_some]
    rfl

/-- What an array is written as is found to be sound when it is read ahead. -/
theorem isSound_toJson (hlegible : Legible a.leaves a.allCounts)
    (hfits : a.toJson.nesting ≤ room) : a.toJson.isSound room = true := by
  induction a generalizing room with
  | flat leaves =>
    rw [nesting_flat] at hfits
    obtain ⟨inner, rfl⟩ := Nat.exists_eq_add_of_le' hfits
    rw [toJson, Json.isSound_array, List.forall_mem_map]
    exact fun d hmem => Json.isSound_of_float? (hlegible.numbers d hmem)
  | nested counts content ih =>
    obtain ⟨hlengths, hinside⟩ := legible_nested hlegible
    obtain ⟨inner, rfl, hlengthsFit, hheld⟩ := exists_room_nested hfits
    rw [toJson, Json.ofMembers, Json.isSound_object]
    refine List.forall_mem_cons.2 ⟨⟨rfl, ?_⟩, List.forall_mem_singleton.2 ⟨rfl, ih hinside hheld⟩⟩
    obtain ⟨innermost, rfl⟩ := Nat.exists_eq_add_of_le' hlengthsFit
    rw [Json.isSound_array, List.forall_mem_map]
    exact fun n hmem => Json.Number.isSome_toFloat?_ofNat (hlengths n hmem)

/-- What an array is written as is read as that array. -/
theorem ofJson?_toJson (hlegible : Legible a.leaves a.allCounts)
    (hfits : a.toJson.nesting ≤ room) : ofJson? room a.toJson = some a := by
  rw [ofJson?, if_pos (isSound_toJson hlegible hfits)]
  exact ofJsonWithin?_toJson hlegible hfits

/-- An array read from a list of numbers fits the room it was read in. -/
theorem fits_of_flat {items : List Json} (hread : (items.mapM float?).map flat = some a)
    (hsound : (Json.array items).isSound room = true) :
    Codec.Fits room a.toJson a.leaves a.allCounts := by
  obtain ⟨leaves, hall, rfl⟩ := Option.map_eq_some_iff.1 hread
  refine ⟨?_, fun d hmem => ?_, List.forall_mem_nil _⟩
  · rw [nesting_flat]
    cases room with
    | zero => cases hsound
    | succ room => exact Nat.le_add_left 1 room
  · obtain ⟨j, -, hnumber⟩ := mem_of_mapM_eq_some hall d hmem
    exact isFinite_of_float? hnumber

/-- An array that was read fits the room it was read in, with numbers and counts that read back. -/
theorem fits_of_ofJsonWithin? (hread : ofJsonWithin? room j = some a)
    (hsound : j.isSound room = true) : Codec.Fits room a.toJson a.leaves a.allCounts := by
  -- On the room, which each container within the array takes one of.
  induction room generalizing j a with
  | zero =>
    cases j with
    | array items => exact fits_of_flat hread hsound
    | _ => cases hread
  | succ room ih =>
    cases j with
    | array items => exact fits_of_flat hread hsound
    | object members =>
      rw [ofJsonWithin?] at hread
      obtain ⟨lengths, hfound, hread⟩ := Option.bind_eq_some_iff.1 hread
      obtain ⟨held, hfound', hread⟩ := Option.bind_eq_some_iff.1 hread
      obtain ⟨counts, hnaturals, hread⟩ := Option.bind_eq_some_iff.1 hread
      obtain ⟨content, hinside, hread⟩ := Option.bind_eq_some_iff.1 hread
      cases hread
      obtain ⟨m, hmem, rfl⟩ := exists_of_member? hfound'
      have hfits := ih hinside (Json.isSound_object.1 hsound m hmem).2
      refine ⟨?_, hfits.numbers, List.forall_mem_append.2 ⟨fun n hmem => ?_, hfits.counts⟩⟩
      · rw [nesting_nested]
        exact Nat.succ_le_succ (max_le ((one_le_nesting content).trans hfits.nesting) hfits.nesting)
      · obtain ⟨item, hnatural⟩ := exists_of_list? hnaturals n hmem
        exact lt_of_natural? hnatural
    | _ => cases hread

/-- There was room for an array that was read. -/
theorem fits_of_ofJson? (hread : ofJson? room j = some a) :
    Codec.Fits room a.toJson a.leaves a.allCounts := by
  unfold ofJson? at hread
  split at hread
  · rename_i hsound
    exact fits_of_ofJsonWithin? hread hsound
  · cases hread

end Jagged

/-! ## Values -/

namespace Value

mutual

/-- The numbers of a value, in arrays and by themselves. -/
def numbers : Value → List Float
  | .scalar x => [x]
  | .array a => a.leaves
  | .tuple items => numbersAll items
  | _ => []

def numbersAll : List Value → List Float
  | [] => []
  | v :: vs => v.numbers ++ numbersAll vs

end

mutual

/-- The lengths of entries in the arrays of a value. -/
def counts : Value → List Nat
  | .array a => a.allCounts
  | .tuple items => countsAll items
  | _ => []

def countsAll : List Value → List Nat
  | [] => []
  | v :: vs => v.counts ++ countsAll vs

end

theorem toJsonAll_eq (vs : List Value) : toJsonAll vs = vs.map toJson := by
  induction vs with
  | nil => rfl
  | cons v vs ih => rw [toJsonAll, ih, List.map_cons]

theorem numbersAll_eq (vs : List Value) : numbersAll vs = vs.flatMap numbers := by
  induction vs with
  | nil => rfl
  | cons v vs ih => rw [numbersAll, ih, List.flatMap_cons]

theorem countsAll_eq (vs : List Value) : countsAll vs = vs.flatMap counts := by
  induction vs with
  | nil => rfl
  | cons v vs ih => rw [countsAll, ih, List.flatMap_cons]

mutual

/-- A value is written in the form of JSON. -/
theorem isJson_toJson : ∀ v : Value, v.toJson.IsJson
  | .scalar x => isJson_variant (Json.isJson_ofFloat x)
  | .array a => isJson_variant a.isJson_toJson
  | .text s => isJson_variant (Json.isJson_ofString s)
  | .tuple items => isJson_variant (Json.isJson_array (isJson_toJsonAll items))
  | .nothing => isJson_bareVariant

theorem isJson_toJsonAll : ∀ vs : List Value, ∀ j ∈ toJsonAll vs, j.IsJson
  | [] => List.forall_mem_nil _
  | v :: vs => List.forall_mem_cons.2 ⟨isJson_toJson v, isJson_toJsonAll vs⟩

end

/-- Each item of a tuple is legible if the tuple is. -/
theorem legible_item {vs : List Value} (hlegible : Legible (numbersAll vs) (countsAll vs))
    {v : Value} (hmem : v ∈ vs) : Legible v.numbers v.counts := by
  rw [numbersAll_eq, countsAll_eq] at hlegible
  exact ⟨List.forall_mem_flatMap.1 hlegible.numbers v hmem,
    List.forall_mem_flatMap.1 hlegible.counts v hmem⟩

mutual

/-- What a value is written as is read as that value. -/
theorem ofJson?_toJson : ∀ (v : Value) (room : Nat) (ahead : Bool), Legible v.numbers v.counts →
    v.toJson.nesting ≤ room → ofJson? room ahead v.toJson = some v
  | .scalar x, room, ahead, hlegible, hfits => by
    obtain ⟨inner, rfl, -⟩ := exists_room hfits
    have hnumber := hlegible.numbers x List.mem_cons_self
    rw [toJson, ofJson?, tagged?_variant]
    simp [hnumber]
  | .array a, room, ahead, hlegible, hfits => by
    obtain ⟨inner, rfl, hheld⟩ := exists_room hfits
    have harray := Jagged.ofJson?_toJson hlegible hheld
    rw [toJson, ofJson?, tagged?_variant]
    simp [harray]
  | .text s, room, ahead, _, hfits => by
    obtain ⟨inner, rfl, -⟩ := exists_room hfits
    rw [toJson, ofJson?, tagged?_variant]
    rfl
  | .tuple items, room, ahead, hlegible, hfits => by
    rw [toJson, toJsonAll_eq] at hfits
    obtain ⟨inner, rfl, hheld⟩ := exists_room_tuple hfits
    have hall : (items.map toJson).mapM (ofJson? inner ahead) = some items :=
      mapM_map_eq_some fun v hmem => ofJson?_item items v hmem inner ahead
        (legible_item hlegible hmem) (hheld _ (List.mem_map_of_mem hmem))
    rw [toJson, toJsonAll_eq, ofJson?, tagged?_variant]
    simp [list?, hall]
  | .nothing, room, ahead, _, hfits => by
    obtain ⟨inner, rfl⟩ := exists_room_bare hfits
    rw [toJson, ofJson?, tagged?_bareVariant]
    rfl

/-- The items of a tuple are read back one by one. -/
theorem ofJson?_item : ∀ vs : List Value, ∀ v ∈ vs, ∀ (room : Nat) (ahead : Bool),
    Legible v.numbers v.counts → v.toJson.nesting ≤ room → ofJson? room ahead v.toJson = some v
  | [] => List.forall_mem_nil _
  | v :: vs => List.forall_mem_cons.2 ⟨ofJson?_toJson v, ofJson?_item vs⟩

end

/-- There was room for a value that was read. -/
theorem fits_of_ofJson? {room : Nat} {ahead : Bool} {j : Json} {v : Value}
    (hread : ofJson? room ahead j = some v) : Fits room v.toJson v.numbers v.counts := by
  -- Strong induction on the room: the items of a tuple are more than one container further in.
  induction room using Nat.strongRecOn generalizing ahead j v with
  | ind room ih =>
    cases room with
    | zero => cases hread
    | succ room =>
      rw [ofJson?] at hread
      obtain ⟨variant, -, hread⟩ := Option.bind_eq_some_iff.1 hread
      split at hread
      · obtain ⟨x, hnumber, rfl⟩ := Option.map_eq_some_iff.1 hread
        exact .variant (.number hnumber)
      · obtain ⟨a, harray, rfl⟩ := Option.map_eq_some_iff.1 hread
        exact .variant (Jagged.fits_of_ofJson? harray)
      · obtain ⟨s, -, rfl⟩ := Option.map_eq_some_iff.1 hread
        exact .variant (.plain (Nat.zero_le room))
      · split at hread
        · cases hread
        · rename_i inner _
          obtain ⟨items, hall, rfl⟩ := Option.map_eq_some_iff.1 hread
          rw [toJson, toJsonAll_eq, numbers, numbersAll_eq, counts, countsAll_eq]
          refine .tuple fun v hmem => ?_
          obtain ⟨item, hdecoded⟩ := exists_of_list? hall v hmem
          exact ih inner (by omega) hdecoded
      · cases hread
        exact .bareVariant
      · cases hread
        exact .bareVariant
      · cases hread

end Value

/-! ## Literals -/

namespace Literal

variable {room : Nat} {ahead : Bool} {j : Json} {l : Literal}

/-- The number that a literal is, if it is one. -/
def numbers : Literal → List Float
  | .number x => [x]
  | _ => []

theorem isJson_toJson (l : Literal) : l.toJson.IsJson := by
  cases l with
  | number x => exact isJson_variant (Json.isJson_ofFloat x)
  | text s => exact isJson_variant (Json.isJson_ofString s)
  | bool b => exact isJson_variant (List.forall_mem_singleton.2 trivial)

/-- What a literal is written as is read as that literal. -/
theorem ofJson?_toJson (hlegible : Legible l.numbers []) (hfits : l.toJson.nesting ≤ room) :
    ofJson? room ahead l.toJson = some l := by
  cases l with
  | number x =>
    obtain ⟨inner, rfl, -⟩ := exists_room hfits
    have hnumber := hlegible.numbers x List.mem_cons_self
    rw [toJson, ofJson?, tagged?_variant]
    simp [hnumber]
  | text s =>
    obtain ⟨inner, rfl, -⟩ := exists_room hfits
    rw [toJson, ofJson?, tagged?_variant]
    rfl
  | bool b =>
    obtain ⟨inner, rfl, -⟩ := exists_room hfits
    rw [toJson, ofJson?, tagged?_variant]
    rfl

/-- There was room for a literal that was read. -/
theorem fits_of_ofJson? (hread : ofJson? room ahead j = some l) :
    Fits room l.toJson l.numbers [] := by
  cases room with
  | zero => cases hread
  | succ room =>
    rw [ofJson?] at hread
    obtain ⟨variant, -, hread⟩ := Option.bind_eq_some_iff.1 hread
    obtain ⟨content, -, hread⟩ := Option.bind_eq_some_iff.1 hread
    split at hread
    · obtain ⟨x, hnumber, rfl⟩ := Option.map_eq_some_iff.1 hread
      exact .variant (.number hnumber)
    · obtain ⟨s, -, rfl⟩ := Option.map_eq_some_iff.1 hread
      exact .variant (.plain (Nat.zero_le room))
    · obtain ⟨b, -, rfl⟩ := Option.map_eq_some_iff.1 hread
      exact .variant (.plain (Nat.zero_le room))
    · cases hread

end Literal

/-! ## Arguments -/

namespace Arg

mutual

/-- The numbers among the literals of an argument. -/
def numbers : Arg → List Float
  | .literal l => l.numbers
  | .tuple items => numbersAll items
  | _ => []

def numbersAll : List Arg → List Float
  | [] => []
  | a :: as => a.numbers ++ numbersAll as

end

theorem toJsonAll_eq (as : List Arg) : toJsonAll as = as.map toJson := by
  induction as with
  | nil => rfl
  | cons a as ih => rw [toJsonAll, ih, List.map_cons]

theorem numbersAll_eq (as : List Arg) : numbersAll as = as.flatMap numbers := by
  induction as with
  | nil => rfl
  | cons a as ih => rw [numbersAll, ih, List.flatMap_cons]

mutual

/-- An argument is written in the form of JSON. -/
theorem isJson_toJson : ∀ a : Arg, a.toJson.IsJson
  | .ref task => isJson_variant (Json.isJson_ofString task)
  | .column name => isJson_variant (Json.isJson_ofString name)
  | .literal l => isJson_variant l.isJson_toJson
  | .absent => isJson_bareVariant
  | .tuple items => isJson_variant (Json.isJson_array (isJson_toJsonAll items))

theorem isJson_toJsonAll : ∀ as : List Arg, ∀ j ∈ toJsonAll as, j.IsJson
  | [] => List.forall_mem_nil _
  | a :: as => List.forall_mem_cons.2 ⟨isJson_toJson a, isJson_toJsonAll as⟩

end

theorem legible_item {as : List Arg} (hlegible : Legible (numbersAll as) []) {a : Arg}
    (hmem : a ∈ as) : Legible a.numbers [] := by
  rw [numbersAll_eq] at hlegible
  exact ⟨List.forall_mem_flatMap.1 hlegible.numbers a hmem, List.forall_mem_nil _⟩

mutual

/-- What an argument is written as is read as that argument. -/
theorem ofJson?_toJson : ∀ (a : Arg) (room : Nat) (ahead : Bool), Legible a.numbers [] →
    a.toJson.nesting ≤ room → ofJson? room ahead a.toJson = some a
  | .ref task, room, ahead, _, hfits => by
    obtain ⟨inner, rfl, -⟩ := exists_room hfits
    rw [toJson, ofJson?, tagged?_variant]
    rfl
  | .column name, room, ahead, _, hfits => by
    obtain ⟨inner, rfl, -⟩ := exists_room hfits
    rw [toJson, ofJson?, tagged?_variant]
    rfl
  | .literal l, room, ahead, hlegible, hfits => by
    obtain ⟨inner, rfl, hheld⟩ := exists_room hfits
    have hliteral : Literal.ofJson? inner ahead l.toJson = some l :=
      Literal.ofJson?_toJson hlegible hheld
    rw [toJson, ofJson?, tagged?_variant]
    simp [hliteral]
  | .absent, room, ahead, _, hfits => by
    obtain ⟨inner, rfl⟩ := exists_room_bare hfits
    rw [toJson, ofJson?, tagged?_bareVariant]
    rfl
  | .tuple items, room, ahead, hlegible, hfits => by
    rw [toJson, toJsonAll_eq] at hfits
    obtain ⟨inner, rfl, hheld⟩ := exists_room_tuple hfits
    have hall : (items.map toJson).mapM (ofJson? inner ahead) = some items :=
      mapM_map_eq_some fun a hmem => ofJson?_item items a hmem inner ahead
        (legible_item hlegible hmem) (hheld _ (List.mem_map_of_mem hmem))
    rw [toJson, toJsonAll_eq, ofJson?, tagged?_variant]
    simp [list?, hall]

theorem ofJson?_item : ∀ as : List Arg, ∀ a ∈ as, ∀ (room : Nat) (ahead : Bool),
    Legible a.numbers [] → a.toJson.nesting ≤ room → ofJson? room ahead a.toJson = some a
  | [] => List.forall_mem_nil _
  | a :: as => List.forall_mem_cons.2 ⟨ofJson?_toJson a, ofJson?_item as⟩

end

/-- There was room for an argument that was read. -/
theorem fits_of_ofJson? {room : Nat} {ahead : Bool} {j : Json} {a : Arg}
    (hread : ofJson? room ahead j = some a) : Fits room a.toJson a.numbers [] := by
  -- Strong induction on the room: the items of a tuple are more than one container further in.
  induction room using Nat.strongRecOn generalizing ahead j a with
  | ind room ih =>
    cases room with
    | zero => cases hread
    | succ room =>
      rw [ofJson?] at hread
      obtain ⟨variant, -, hread⟩ := Option.bind_eq_some_iff.1 hread
      split at hread
      · obtain ⟨task, -, rfl⟩ := Option.map_eq_some_iff.1 hread
        exact .variant (.plain (Nat.zero_le room))
      · obtain ⟨name, -, rfl⟩ := Option.map_eq_some_iff.1 hread
        exact .variant (.plain (Nat.zero_le room))
      · obtain ⟨l, hliteral, rfl⟩ := Option.map_eq_some_iff.1 hread
        exact .variant (Literal.fits_of_ofJson? hliteral)
      · split at hread
        · cases hread
        · rename_i inner _
          obtain ⟨items, hall, rfl⟩ := Option.map_eq_some_iff.1 hread
          have hnoCounts : [] = items.flatMap fun _ => ([] : List Nat) := by simp
          rw [toJson, toJsonAll_eq, numbers, numbersAll_eq, hnoCounts]
          refine .tuple fun a hmem => ?_
          obtain ⟨item, hdecoded⟩ := exists_of_list? hall a hmem
          exact ih inner (by omega) hdecoded
      · cases hread
        exact .bareVariant
      · cases hread
        exact .bareVariant
      · cases hread

end Arg

/-! ## Codecs -/

namespace Codec

variable {α : Type} {c : Codec α} {numbers : α → List Float} {counts : α → List Nat}

/-- Nothing is lost between values of the type and texts, as far as numbers are read back when they
are written by themselves. What is written of finite numbers and of lengths of 64 bits is read as
the value that it was, unless it is nested too deeply. What was read has finite numbers, and it is
read again once it is written. -/
structure Lossless (c : Codec α) (numbers : α → List Float) (counts : α → List Nat) : Prop where
  written : ∀ x, (∀ d ∈ numbers x, d.isFinite ∧ ReadsAlone d) → (∀ n ∈ counts x, n < wordLimit) →
    (c.read? (c.write x) = some x ↔ (c.encode x).nesting ≤ nestingLimit)
  read : ∀ text x, c.read? text = some x → (∀ d ∈ numbers x, d.isFinite) ∧
    ((∀ d ∈ numbers x, ReadsAlone d) → c.read? (c.write x) = some x)

/-- Reading what was written is decoding what was encoded. -/
theorem read?_write (hjson : ∀ x, (c.encode x).IsJson) (x : α) :
    c.read? (c.write x) = c.decode? nestingLimit false (c.encode x) := by
  rw [read?, write, Json.read?_compact (hjson x), Option.bind_some]

theorem legible_of_readsAlone {ds : List Float} {ns : List Nat} (halone : ∀ d ∈ ds, ReadsAlone d)
    (hsmall : ∀ n ∈ ns, n < wordLimit) : Legible ds ns :=
  ⟨fun d hmem => readsAlone_iff.1 (halone d hmem), hsmall⟩

/-- A codec loses nothing if it writes in the form of JSON, reads what was written where there is
room for it, and reads only what there is room for. -/
theorem lossless (hjson : ∀ x, (c.encode x).IsJson)
    (hback : ∀ x, Legible (numbers x) (counts x) → (c.encode x).nesting ≤ nestingLimit →
      c.decode? nestingLimit false (c.encode x) = some x)
    (hfits : ∀ j x, c.decode? nestingLimit false j = some x →
      Fits nestingLimit (c.encode x) (numbers x) (counts x)) : c.Lossless numbers counts := by
  constructor
  · intro x halone hsmall
    rw [read?_write hjson]
    exact ⟨fun hread => (hfits _ x hread).nesting,
      hback x (legible_of_readsAlone (fun d hmem => (halone d hmem).2) hsmall)⟩
  · intro text x hread
    obtain ⟨j, -, hdecoded⟩ := Option.bind_eq_some_iff.1 hread
    have hroom := hfits j x hdecoded
    refine ⟨hroom.numbers, fun halone => ?_⟩
    rw [read?_write hjson]
    exact hback x (legible_of_readsAlone halone hroom.counts) hroom.nesting

end Codec

/-- The codecs of values, arrays, literals and arguments lose nothing. -/
theorem codecs_lossless :
    Codec.value.Lossless Value.numbers Value.counts ∧
    Codec.array.Lossless Jagged.leaves Jagged.allCounts ∧
    Codec.literal.Lossless Literal.numbers (fun _ => []) ∧
    Codec.argument.Lossless Arg.numbers (fun _ => []) := by
  have hvalue : Codec.value.Lossless Value.numbers Value.counts :=
    lossless Value.isJson_toJson (fun v => Value.ofJson?_toJson v nestingLimit false)
      fun _ _ => Value.fits_of_ofJson?
  have harray : Codec.array.Lossless Jagged.leaves Jagged.allCounts :=
    lossless Jagged.isJson_toJson (fun _ => Jagged.ofJson?_toJson)
      fun _ _ => Jagged.fits_of_ofJson?
  have hliteral : Codec.literal.Lossless Literal.numbers (fun _ => []) :=
    lossless Literal.isJson_toJson (fun _ => Literal.ofJson?_toJson)
      fun j l (hread : Literal.ofJson? nestingLimit false j = some l) =>
        Literal.fits_of_ofJson? hread
  have hargument : Codec.argument.Lossless Arg.numbers (fun _ => []) :=
    lossless Arg.isJson_toJson (fun a => Arg.ofJson?_toJson a nestingLimit false)
      fun _ _ => Arg.fits_of_ofJson?
  exact ⟨hvalue, harray, hliteral, hargument⟩

/-- A tuple around every other kind of value. Its numbers are `-0.0`, `0.1` and the sum of `0.1` and
`0.2`, which takes all of the seventeen digits that a double may take. -/
theorem codecs_lossless_tuple :
    let x : Value := .tuple [
      .scalar (Float.ofBits 0x8000000000000000),
      .array (.nested [2, 0]
        (.flat [Float.ofBits 0x3FB999999999999A, Float.ofBits 0x3FD3333333333334])),
      .array (.flat []), .text "a\"\n\u0001é", .nothing, .tuple []]
    Codec.value.read? (Codec.value.write x) = some x := by
  intro x
  have hnumbers : ∀ d ∈ x.numbers, d.isFinite ∧ Codec.float? (Json.ofFloat d) = some d := by
    decide +kernel
  have hcounts : ∀ n ∈ x.counts, n < wordLimit := by decide +kernel
  have hnesting : (Codec.value.encode x).nesting ≤ nestingLimit := by decide +kernel
  exact (codecs_lossless.1.written x
    (fun d hmem => ⟨(hnumbers d hmem).1, readsAlone_iff.2 (hnumbers d hmem).2⟩) hcounts).2 hnesting

end ColumnFlow
