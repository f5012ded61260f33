import ColumnFlow.Codec
import ColumnFlow.Proofs.Json.Numbers

/-!
# Variants that read back

A variant is read as its name and its content. What is nested inside of a document that was written
or read is bounded by the room there is for it.
-/

namespace ColumnFlow

section

variable {α β : Type}

/-! ## Lists of answers -/

/-- Items that are all read back are read back as a list. -/
theorem mapM_map_eq_some {f : β → Option α} {g : α → β} {xs : List α}
    (heach : ∀ x ∈ xs, f (g x) = some x) : (xs.map g).mapM f = some xs := by
  induction xs with
  | nil => rfl
  | cons x xs ih =>
    obtain ⟨hfirst, hrest⟩ := List.forall_mem_cons.1 heach
    rw [List.map_cons, List.mapM_cons, hfirst, ih hrest]
    rfl

/-- Every item of a list that was read was read from an item of the document. -/
theorem mem_of_mapM_eq_some {f : β → Option α} {ys : List β} {xs : List α}
    (hall : ys.mapM f = some xs) : ∀ x ∈ xs, ∃ y ∈ ys, f y = some x := by
  induction ys generalizing xs with
  | nil =>
    cases hall
    exact List.forall_mem_nil _
  | cons y ys ih =>
    rw [List.mapM_cons] at hall
    obtain ⟨z, hfirst, hall⟩ := Option.bind_eq_some_iff.1 hall
    obtain ⟨zs, hrest, hall⟩ := Option.bind_eq_some_iff.1 hall
    cases hall
    refine List.forall_mem_cons.2 ⟨⟨y, List.mem_cons_self, hfirst⟩, fun x hmem => ?_⟩
    obtain ⟨y', hmem', hread⟩ := ih hrest x hmem
    exact ⟨y', List.mem_cons_of_mem _ hmem', hread⟩

end

namespace Json

/-! ## Nesting -/

mutual

/-- How many containers are nested in each other. -/
def nesting : Json → Nat
  | .array items => deepest items + 1
  | .object members => deepestMember members + 1
  | _ => 0

def deepest : List Json → Nat
  | [] => 0
  | j :: js => max j.nesting (deepest js)

def deepestMember : List (Text × Json) → Nat
  | [] => 0
  | m :: ms => max m.2.nesting (deepestMember ms)

end

/-- Items are nested no deeper than a bound exactly if each of them is. -/
theorem deepest_le_iff {items : List Json} {k : Nat} :
    deepest items ≤ k ↔ ∀ j ∈ items, j.nesting ≤ k := by
  induction items with
  | nil => simp [deepest]
  | cons j js ih => rw [deepest, max_le_iff, ih, List.forall_mem_cons]

theorem nesting_ofFloat (x : Float) : (ofFloat x).nesting = 0 := by
  unfold ofFloat
  split <;> rfl

theorem deepest_numbers (xs : List Float) : deepest (xs.map ofFloat) = 0 := by
  rw [← Nat.le_zero, deepest_le_iff, List.forall_mem_map]
  exact fun x _ => (nesting_ofFloat x).le

theorem deepest_naturals (ns : List Nat) : deepest (ns.map ofNat) = 0 := by
  rw [← Nat.le_zero, deepest_le_iff, List.forall_mem_map]
  exact fun n _ => Nat.le_refl 0

/-! ## Sound documents -/

theorem allSound_iff {room : Nat} {items : List Json} :
    allSound room items = true ↔ ∀ j ∈ items, j.isSound room = true := by
  induction items with
  | nil => simp [allSound]
  | cons j js ih => rw [allSound, Bool.and_eq_true, ih, List.forall_mem_cons]

theorem membersSound_iff {room : Nat} {members : List (Text × Json)} :
    membersSound room members = true ↔ ∀ m ∈ members, m.1.isSome ∧ m.2.isSound room = true := by
  induction members with
  | nil => simp [membersSound]
  | cons m ms ih =>
    rw [membersSound, Bool.and_eq_true, Bool.and_eq_true, ih, List.forall_mem_cons]

/-- A container is sound if there is room for it and each of its parts is. -/
theorem isSound_array {room : Nat} {items : List Json} :
    (array items).isSound (room + 1) = true ↔ ∀ j ∈ items, j.isSound room = true := by
  rw [isSound, Nat.add_sub_cancel, allSound_iff.symm]
  simp

/-- An object is sound if its keys are ordinary text and its members are sound one container further
in. -/
theorem isSound_object {room : Nat} {members : List (Text × Json)} :
    (object members).isSound (room + 1) = true ↔
      ∀ m ∈ members, m.1.isSome ∧ m.2.isSound room = true := by
  rw [isSound, Nat.add_sub_cancel, membersSound_iff.symm]
  simp

theorem isSound_of_float? {room : Nat} {j : Json} {x : Float} (hread : Codec.float? j = some x) :
    j.isSound room = true := by
  cases j with
  | number n => exact Option.isSome_of_eq_some hread
  | _ => cases hread

end Json

namespace Codec

/-! ## Parts that were read -/

theorem isFinite_of_float? {j : Json} {x : Float} (hread : float? j = some x) : x.isFinite := by
  cases j with
  | number n => exact Json.Number.isFinite_of_toFloat? hread
  | _ => cases hread

/-- A natural number that was read fits a word. -/
theorem lt_of_natural? {j : Json} {n : Nat} (hread : natural? j = some n) : n < wordLimit := by
  cases j with
  | number k => exact Json.Number.lt_of_toNat? hread
  | _ => cases hread

/-- A member that was found is one of the members. -/
theorem exists_of_member? {key : String} {members : List (Json.Text × Json)} {j : Json}
    (hfound : member? key members = some j) : ∃ m ∈ members, m.2 = j := by
  unfold member? at hfound
  split at hfound
  · rename_i m honly
    cases hfound
    have hmem : m ∈ membersOf [key] members := honly ▸ List.mem_singleton_self m
    exact ⟨m, List.mem_of_mem_filter hmem, rfl⟩
  · cases hfound

/-- Every item that was read was decoded from an item of the list. -/
theorem exists_of_list? {α : Type} {decode? : Json → Option α} {j : Json} {xs : List α}
    (hread : list? decode? j = some xs) : ∀ x ∈ xs, ∃ item, decode? item = some x := by
  cases j with
  | array items =>
    intro x hmem
    obtain ⟨item, -, hdecoded⟩ := mem_of_mapM_eq_some hread x hmem
    exact ⟨item, hdecoded⟩
  | _ => cases hread

/-! ## What was written and what was read -/

variable {room : Nat} {ahead : Bool} {name : String} {content : Json}

/-- Numbers that are read back by themselves, and lengths of 64 bits. -/
structure Legible (numbers : List Float) (counts : List Nat) : Prop where
  numbers : ∀ d ∈ numbers, float? (.ofFloat d) = some d
  counts : ∀ n ∈ counts, n < wordLimit

/-- A document for which there is room, of finite numbers and lengths of 64 bits. -/
structure Fits (room : Nat) (j : Json) (numbers : List Float) (counts : List Nat) : Prop where
  nesting : j.nesting ≤ room
  numbers : ∀ d ∈ numbers, d.isFinite
  counts : ∀ n ∈ counts, n < wordLimit

/-- There is room for a document without numbers. -/
theorem Fits.plain {j : Json} (hfits : j.nesting ≤ room) : Fits room j [] [] :=
  ⟨hfits, List.forall_mem_nil _, List.forall_mem_nil _⟩

/-- There is always room for a number that was read. -/
theorem Fits.number {j : Json} {x : Float} (hread : float? j = some x) :
    Fits room (.ofFloat x) [x] [] :=
  ⟨Json.nesting_ofFloat x ▸ Nat.zero_le room, List.forall_mem_singleton.2
    (isFinite_of_float? hread), List.forall_mem_nil _⟩

/-! ## Variants -/

theorem isJson_variant (hjson : content.IsJson) : (variant name content).IsJson :=
  Json.isJson_ofMembers (List.forall_mem_cons.2
    ⟨Json.isJson_ofString name, List.forall_mem_singleton.2 hjson⟩)

theorem isJson_bareVariant : (bareVariant name).IsJson :=
  Json.isJson_ofMembers (List.forall_mem_singleton.2 (Json.isJson_ofString name))

theorem nesting_variant (name : String) (content : Json) :
    (variant name content).nesting = content.nesting + 1 := by
  simp [variant, Json.ofMembers, Json.nesting, Json.deepestMember, Json.ofString]

theorem nesting_bareVariant (name : String) : (bareVariant name).nesting = 1 := rfl

/-- A variant with content is told by its only member. -/
theorem tagged?_variant : tagged? room ahead (variant name content) =
    some ⟨name, some content, ahead⟩ := by
  simp [tagged?, variant, Json.ofMembers, membersOf, Json.ofString, name?]

/-- A variant without content is told by its name. -/
theorem tagged?_bareVariant : tagged? room ahead (bareVariant name) = some ⟨name, none, ahead⟩ := by
  simp [tagged?, bareVariant, Json.ofMembers, membersOf, Json.ofString, name?]

/-- The content of a variant is one container further in. -/
theorem exists_room (hfits : (variant name content).nesting ≤ room) :
    ∃ inner, room = inner + 1 ∧ content.nesting ≤ inner := by
  rw [nesting_variant] at hfits
  obtain ⟨inner, rfl⟩ := Nat.exists_eq_add_of_le' (Nat.le_trans (Nat.le_add_left 1 _) hfits)
  exact ⟨inner, rfl, Nat.le_of_succ_le_succ hfits⟩

/-- There is room for a variant without content only if there is room for one container. -/
theorem exists_room_bare (hfits : (bareVariant name).nesting ≤ room) :
    ∃ inner, room = inner + 1 := by
  rw [nesting_bareVariant] at hfits
  exact Nat.exists_eq_add_of_le' hfits

/-- The items of a tuple are two containers further in. -/
theorem exists_room_tuple {items : List Json}
    (hfits : (variant name (.array items)).nesting ≤ room) :
    ∃ inner, room = inner + 2 ∧ ∀ j ∈ items, j.nesting ≤ inner := by
  obtain ⟨between, rfl, hheld⟩ := exists_room hfits
  rw [Json.nesting] at hheld
  obtain ⟨inner, rfl⟩ := Nat.exists_eq_add_of_le' (Nat.le_trans (Nat.le_add_left 1 _) hheld)
  exact ⟨inner, rfl, Json.deepest_le_iff.1 (Nat.le_of_succ_le_succ hheld)⟩

/-- A variant fits if there is room for its content one container further in. -/
theorem Fits.variant {numbers : List Float} {counts : List Nat}
    (hfits : Fits room content numbers counts) :
    Fits (room + 1) (variant name content) numbers counts := by
  refine ⟨?_, hfits.numbers, hfits.counts⟩
  rw [nesting_variant]
  exact Nat.succ_le_succ hfits.nesting

theorem Fits.bareVariant : Fits (room + 1) (bareVariant name) [] [] :=
  .plain (Nat.le_add_left 1 room)

/-- A tuple fits if its items do two containers further in. -/
theorem Fits.tuple {α : Type} {items : List α} {encode : α → Json} {numbers : α → List Float}
    {counts : α → List Nat}
    (heach : ∀ x ∈ items, Fits room (encode x) (numbers x) (counts x)) :
    Fits (room + 2) (Codec.variant name (.array (items.map encode)))
      (items.flatMap numbers) (items.flatMap counts) := by
  refine .variant ⟨?_, ?_, ?_⟩
  · rw [Json.nesting]
    exact Nat.succ_le_succ (Json.deepest_le_iff.2
      (List.forall_mem_map.2 fun x hmem => (heach x hmem).nesting))
  · exact List.forall_mem_flatMap.2 fun x hmem => (heach x hmem).numbers
  · exact List.forall_mem_flatMap.2 fun x hmem => (heach x hmem).counts

end Codec

end ColumnFlow
