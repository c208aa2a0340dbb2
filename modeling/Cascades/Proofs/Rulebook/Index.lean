import Cascades.Proofs.Rulebook
import Cascades.Rulebook.Index

/-!
# The index follows the slots

Every table of a rulebook says something about its slots and nothing else. A slot with a new name is
entered in all of them, so they keep saying it. Where they do, the index has the number that a
search of the slots finds.
-/

namespace Cascades

/-- A slot of an active rule that serves a goal. -/
def RuleSlot.Serves (goal : Goal) : RuleSlot → Prop
  | .active rule _ => rule.kind = goal.kind
  | .retired _ => False

/-- A slot of an active rule that was registered for a source, or for all of them. -/
def RuleSlot.IsFor (source : Option String) : RuleSlot → Prop
  | .active _ scope => scope = source
  | .retired _ => False

namespace Rulebook

variable {book : Rulebook} {id : RuleId}

/-- A number is in use, and the slot that it stands for has a property. -/
def Holds (book : Rulebook) (id : RuleId) (property : RuleSlot → Prop) : Prop :=
  ∃ slot, book.slot? id = some slot ∧ property slot

theorem name?_eq_some {name : String} :
    book.name? id = some name ↔ book.Holds id fun slot => slot.name = name :=
  Option.map_eq_some_iff

theorem lookup_eq_ok {rule : Rule} :
    book.lookup id = .ok rule ↔ ∃ source, book.slot? id = some (.active rule source) := by
  rw [lookup]
  cases book.slot? id with
  | none => simp
  | some slot => cases slot <;> simp

theorem not_holds (last : id.toNat = book.slots.size) (property : RuleSlot → Prop) :
    ¬ book.Holds id property := by
  rintro ⟨slot, found, -⟩
  exact Nat.ne_of_lt (Array.getElem?_eq_some_iff.mp found).1 last

/-! ## Lists of the slots -/

/-- The slots with their numbers. -/
theorem mem_entries (short : book.slots.size ≤ UInt16.size) {slot : RuleSlot} :
    (id, slot) ∈ (book.slots.toList.mapIdx fun position slot => (UInt16.ofNat position, slot)) ↔
      book.slot? id = some slot := by
  rw [List.mem_mapIdx, slot?]
  constructor
  · rintro ⟨position, inside, same⟩
    cases same
    rw [Array.length_toList] at inside
    rw [UInt16.toNat_ofNat_of_lt' (Nat.lt_of_lt_of_le inside short)]
    simp [inside]
  · intro found
    rcases Array.getElem?_eq_some_iff.mp found with ⟨inside, slot_eq⟩
    exact ⟨id.toNat, by simpa using inside, by simp [slot_eq]⟩

theorem mem_toList (short : book.slots.size ≤ UInt16.size) {rule : Rule} :
    (id, rule) ∈ book.toList ↔ book.lookup id = .ok rule := by
  rw [toList, List.mem_filterMap, lookup_eq_ok]
  constructor
  · rintro ⟨⟨other, slot⟩, slot_mem, same⟩
    cases slot with
    | retired name => cases same
    | active held source =>
        cases same
        exact ⟨source, (mem_entries short).mp slot_mem⟩
  · rintro ⟨source, found⟩
    exact ⟨(id, .active rule source), (mem_entries short).mpr found, rfl⟩

theorem ascending_toList (short : book.slots.size ≤ UInt16.size) :
    (book.toList.map Prod.fst).Pairwise (· < ·) := by
  have ascending : (book.slots.toList.mapIdx fun position slot =>
      ((UInt16.ofNat position, slot) : RuleId × RuleSlot)).Pairwise fun left right =>
        left.1 < right.1 := by
    refine List.pairwise_iff_getElem.mpr ?_
    intro first second first_lt second_lt before
    rw [List.length_mapIdx, Array.length_toList] at first_lt second_lt
    rw [List.getElem_mapIdx, List.getElem_mapIdx, UInt16.lt_iff_toNat_lt,
      UInt16.toNat_ofNat_of_lt' (Nat.lt_of_lt_of_le first_lt short),
      UInt16.toNat_ofNat_of_lt' (Nat.lt_of_lt_of_le second_lt short)]
    exact before
  rw [List.pairwise_map, toList]
  refine List.Pairwise.filterMap _ ?_ ascending
  rintro ⟨left, left_slot⟩ ⟨right, right_slot⟩ before first first_eq second second_eq
  cases left_slot with
  | retired name => cases first_eq
  | active rule source =>
      cases right_slot with
      | retired name => cases second_eq
      | active other scope =>
          cases first_eq
          cases second_eq
          exact before

theorem describe_eq : book.describe =
    (book.slots.toList.mapIdx fun position slot => (UInt16.ofNat position, slot)).map
      fun (id, slot) => summary id slot := by
  rw [describe]
  refine List.ext_getElem (by simp) ?_
  intro position _ _
  rw [List.getElem_mapIdx, List.getElem_map, List.getElem_mapIdx]

theorem id_summary (slot : RuleSlot) : (summary id slot).id = id := by
  cases slot <;> rfl

theorem ids_describe : book.describe.map RuleSummary.id =
    (List.range book.size).map UInt16.ofNat := by
  rw [describe, size, ← Array.length_toList]
  refine List.ext_getElem (by simp) ?_
  intro position _ _
  rw [List.getElem_map, List.getElem_mapIdx, id_summary, List.getElem_map, List.getElem_range]

theorem exists_of_mem_describe (short : book.slots.size ≤ UInt16.size) {description : RuleSummary}
    (description_mem : description ∈ book.describe) :
    ∃ slot, book.slot? description.id = some slot ∧ description = summary description.id slot := by
  rw [describe_eq, List.mem_map] at description_mem
  rcases description_mem with ⟨⟨other, slot⟩, slot_mem, rfl⟩
  rw [id_summary]
  exact ⟨slot, (mem_entries short).mp slot_mem, rfl⟩

/-! ## One more slot -/

/-- Where a slot is added, only the new number stands for something else than before. -/
theorem holds_put (last : id.toNat = book.slots.size) (slot : RuleSlot) {other : RuleId}
    {property : RuleSlot → Prop} :
    (book.put id slot).Holds other property ↔
      other = id ∧ property slot ∨ book.Holds other property := by
  rw [Holds, slot?_put last]
  by_cases here : other = id
  · subst here
    simp [not_holds last]
  · simp [here, Holds]

theorem contains_rulesFor_put {slot : RuleSlot} {goal : Goal} {other : RuleId} :
    ((book.put id slot).rulesFor goal).contains other = true ↔
      other = id ∧ slot.Serves goal ∨ (book.rulesFor goal).contains other = true := by
  cases slot with
  | retired name => simp [rulesFor_put_retired, RuleSlot.Serves]
  | active rule source =>
      rw [rulesFor_put_active, RuleSlot.Serves]
      split <;> simp_all [RuleSet.contains_insert, or_comm]

theorem contains_unrestricted_put {slot : RuleSlot} {other : RuleId} :
    (book.put id slot).unrestricted.contains other = true ↔
      other = id ∧ slot.IsFor none ∨ book.unrestricted.contains other = true := by
  rcases slot with ⟨rule, _ | source⟩ | name
  · simp [put, RuleSlot.IsFor, RuleSet.contains_insert, or_comm]
  · simp [put, RuleSlot.IsFor]
  · simp [put, RuleSlot.IsFor]

/-- The rules that are restricted to a source, none if it has no entry. -/
def own (book : Rulebook) (source : String) : RuleSet :=
  (book.restrictedTo? source).getD .empty

theorem contains_restrict (restricted : List (String × RuleSet)) (source name : String)
    (id other : RuleId) :
    (((restrict restricted source id).lookup name).getD .empty).contains other =
      (((restricted.lookup name).getD .empty).contains other ||
        (decide (source = name) && other == id)) := by
  induction restricted with
  | nil =>
      by_cases here : source = name
      · subst here
        simp [restrict, RuleSet.contains_insert]
      · simp [restrict, List.lookup_cons, beq_false_of_ne (Ne.symm here), here]
  | cons entry rest ih =>
      rcases entry with ⟨held, rules⟩
      rw [restrict]
      split
      · rename_i same
        subst same
        by_cases here : held = name
        · subst here
          simp [RuleSet.contains_insert]
        · simp [List.lookup_cons, beq_false_of_ne (Ne.symm here), here]
      · rename_i different
        by_cases here : held = name
        · subst here
          simp [Ne.symm different]
        · simpa [List.lookup_cons, beq_false_of_ne (Ne.symm here)] using ih

theorem contains_own_put {slot : RuleSlot} {source : String} {other : RuleId} :
    ((book.put id slot).own source).contains other = true ↔
      other = id ∧ slot.IsFor (some source) ∨ (book.own source).contains other = true := by
  rcases slot with ⟨rule, _ | scope⟩ | name
  · simp [put, RuleSlot.IsFor, own, restrictedTo?]
  · simp [put, RuleSlot.IsFor, own, restrictedTo?, contains_restrict, or_comm, and_comm]
  · simp [put, RuleSlot.IsFor, own, restrictedTo?]

theorem contains_mask {source : Option String} {id : RuleId} :
    (book.mask source).contains id = true ↔
      book.unrestricted.contains id = true ∨
        ∃ name, source = some name ∧ (book.own name).contains id = true := by
  cases source with
  | none => simp [mask]
  | some name =>
      rw [mask, Option.bind_some]
      cases found : book.restrictedTo? name with
      | none => simp [own, found]
      | some rules => simp [own, found, RuleSet.contains_union]

end Rulebook

namespace IndexedRulebook

open Rulebook

variable {indexed : IndexedRulebook} {id : RuleId}

/-- Every table says of the slots what it is there for. -/
structure Kept (indexed : IndexedRulebook) : Prop where
  short : indexed.book.slots.size ≤ UInt16.size
  numbers : ∀ {name id}, indexed.find? name = some id ↔
    indexed.book.Holds id fun slot => slot.name = name
  serving : ∀ {goal id}, (indexed.book.rulesFor goal).contains id = true ↔
    indexed.book.Holds id (RuleSlot.Serves goal)
  unrestricted : ∀ {id}, indexed.book.unrestricted.contains id = true ↔
    indexed.book.Holds id (RuleSlot.IsFor none)
  restricted : ∀ {source id}, (indexed.book.own source).contains id = true ↔
    indexed.book.Holds id (RuleSlot.IsFor (some source))

namespace Kept

theorem empty : IndexedRulebook.empty.Kept := by
  have nothing (id : RuleId) (property : RuleSlot → Prop) :
      ¬ IndexedRulebook.empty.book.Holds id property := by
    rintro ⟨slot, found, -⟩
    cases found
  refine ⟨Nat.zero_le _, ?_, ?_, ?_, ?_⟩
  · exact iff_of_false (by simp [IndexedRulebook.empty, find?]) (nothing _ _)
  · intro goal id
    refine iff_of_false ?_ (nothing _ _)
    cases goal <;> exact Bool.eq_false_iff.mp (RuleSet.contains_empty id)
  · exact iff_of_false (Bool.eq_false_iff.mp (RuleSet.contains_empty _)) (nothing _ _)
  · exact iff_of_false (Bool.eq_false_iff.mp (RuleSet.contains_empty _)) (nothing _ _)

/-- A slot with a new name is entered in all tables. -/
theorem put (kept : indexed.Kept) {slot : RuleSlot} (last : id.toNat = indexed.book.slots.size)
    (unknown : indexed.find? slot.name = none) :
    Kept ⟨indexed.book.put id slot, (slot.name, id) :: indexed.numbers⟩ := by
  refine ⟨?_, ?_, ?_, ?_, ?_⟩
  · rw [slots_put, Array.size_push, ← last]
    exact id.toNat_lt
  · intro name other
    rw [holds_put last, ← kept.numbers, find?, find?, List.lookup_cons]
    by_cases here : name = slot.name
    · subst here
      rw [find?] at unknown
      simp [unknown, eq_comm]
    · simp [beq_false_of_ne here, Ne.symm here]
  · intro goal other
    rw [contains_rulesFor_put, kept.serving, holds_put last]
  · intro other
    rw [contains_unrestricted_put, kept.unrestricted, holds_put last]
  · intro source other
    rw [contains_own_put, kept.restricted, holds_put last]

theorem exists_of_mem (kept : indexed.Kept) {slot : RuleSlot}
    (slot_mem : slot ∈ indexed.book.slots.toList) : ∃ id, indexed.book.slot? id = some slot := by
  rcases Array.getElem?_of_mem (Array.mem_toList_iff.mp slot_mem) with ⟨position, found⟩
  have inside := (Array.getElem?_eq_some_iff.mp found).1
  refine ⟨UInt16.ofNat position, ?_⟩
  rw [slot?, UInt16.toNat_ofNat_of_lt' (Nat.lt_of_lt_of_le inside kept.short), found]

/-- A name has a number exactly if a slot has the name. -/
theorem isSome_find? (kept : indexed.Kept) {name : String} :
    (indexed.find? name).isSome = true ↔ ∃ slot ∈ indexed.book.slots.toList, slot.name = name := by
  rw [Option.isSome_iff_exists]
  constructor
  · rintro ⟨id, found⟩
    rcases kept.numbers.mp found with ⟨slot, slot_eq, named⟩
    exact ⟨slot, Array.mem_toList_iff.mpr (Array.mem_of_getElem? slot_eq), named⟩
  · rintro ⟨slot, slot_mem, named⟩
    rcases kept.exists_of_mem slot_mem with ⟨id, slot_eq⟩
    exact ⟨id, kept.numbers.mpr ⟨slot, slot_eq, named⟩⟩

/-- The table has the number that a search of the slots finds. -/
theorem find?_eq (kept : indexed.Kept) (name : String) :
    indexed.book.find? name = indexed.find? name := by
  rw [Rulebook.find?]
  cases searched : indexed.book.slots.findIdx? fun slot => slot.name == name with
  | none =>
      rw [Array.findIdx?_eq_none_iff] at searched
      refine (Option.not_isSome_iff_eq_none.mp ?_).symm
      intro known
      rcases kept.isSome_find?.mp known with ⟨slot, slot_mem, named⟩
      have differs := searched slot (Array.mem_toList_iff.mp slot_mem)
      simp [named] at differs
  | some position =>
      rcases Array.findIdx?_eq_some_iff_getElem.mp searched with ⟨inside, named, -⟩
      refine (kept.numbers.mpr ⟨_, ?_, beq_iff_eq.mp named⟩).symm
      rw [slot?, UInt16.toNat_ofNat_of_lt' (Nat.lt_of_lt_of_le inside kept.short),
        Array.getElem?_eq_getElem inside]

/-- The rulebook that searches its slots answers every call in the same way. -/
theorem perform_eq (kept : indexed.Kept) (call : RuleCall) :
    indexed.book.perform call = ((indexed.perform call).1.book, (indexed.perform call).2) := by
  have next_eq : indexed.book.nextId call.slot.name = indexed.nextId call.slot.name := by
    rw [Rulebook.nextId, IndexedRulebook.nextId, kept.find?_eq]
  rw [Rulebook.perform_eq, add, next_eq, perform]
  cases indexed.nextId call.slot.name <;> rfl

theorem lookupName_eq (kept : indexed.Kept) (name : String) :
    indexed.book.lookupName name = indexed.lookupName name := by
  cases found : indexed.find? name <;>
    simp [Rulebook.lookupName, lookupName, kept.find?_eq, found]

end Kept

end IndexedRulebook

end Cascades
