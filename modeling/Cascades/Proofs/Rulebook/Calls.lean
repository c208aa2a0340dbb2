import Cascades.Proofs.Rulebook.Index

/-!
# The tables of a rulebook agree

Whatever calls have been made, the slots are the ones of the calls that were not rejected, in their
order. The names lead back to the numbers, the sets of the two kinds share the numbers of the active
rules among them, and the rules for a source are the unrestricted ones and its own.

A call is carried out completely or not at all, and as it only adds a slot, what a number or a name
stands for never changes.
-/

namespace Cascades

namespace IndexedRulebook

open Rulebook

variable {indexed : IndexedRulebook} {id : RuleId}

/-! ## Sequences of calls -/

/-- A call that is rejected because an earlier one that was not has its name. -/
def Taken (slots : List RuleSlot) (call : RuleCall) : Prop :=
  ∃ slot ∈ slots, slot.name = call.slot.name

instance (slots : List RuleSlot) (call : RuleCall) : Decidable (Taken slots call) :=
  inferInstanceAs (Decidable (∃ slot ∈ slots, slot.name = call.slot.name))

/-- The slots after a call, of which there are 65536 at most. -/
def extend (slots : List RuleSlot) (call : RuleCall) : List RuleSlot :=
  if Taken slots call ∨ slots.length = 65536 then slots else slots ++ [call.slot]

/-- The slots of the calls that are not rejected. -/
def slotsOf (calls : List RuleCall) : List RuleSlot :=
  calls.foldl extend []

/-- How a call is answered where the given slots are in use, and what rulebook it leaves. -/
structure Answered (indexed : IndexedRulebook) (slots : List RuleSlot) (call : RuleCall) : Prop where
  duplicate : Taken slots call →
    indexed.perform call = (indexed, .error (.duplicateRule call.slot.name))
  exhausted : ¬ Taken slots call → slots.length = 65536 →
    indexed.perform call = (indexed, .error (.corrupted .ruleNumbersExhausted))
  accepted : ¬ Taken slots call → slots.length < 65536 → ∃ id : RuleId, id.toNat = slots.length ∧
    (indexed.perform call).2 = .ok id ∧
      (indexed.perform call).1.book.slots.toList = slots ++ [call.slot]
  /-- Whatever the reason, a call that gets no number changes nothing. -/
  rejected : ∀ {failure}, (indexed.perform call).2 = .error failure →
    (indexed.perform call).1 = indexed

section After

variable {slots : List RuleSlot}

/-- A call enters its slot under a new number, or fails and changes nothing. -/
theorem perform_cases (indexed : IndexedRulebook) (call : RuleCall) :
    (∃ id, indexed.nextId call.slot.name = .ok id ∧ indexed.perform call =
      (⟨indexed.book.put id call.slot, (call.slot.name, id) :: indexed.numbers⟩, .ok id)) ∨
    ∃ failure, indexed.nextId call.slot.name = .error failure ∧
      indexed.perform call = (indexed, .error failure) := by
  rw [perform]
  cases indexed.nextId call.slot.name with
  | ok id => exact .inl ⟨id, rfl, rfl⟩
  | error failure => exact .inr ⟨failure, rfl, rfl⟩

/-- The next number follows those in use, and is only given to a name without one. -/
theorem nextId_eq_ok {name : String} (next_eq : indexed.nextId name = .ok id) :
    id.toNat = indexed.book.slots.size ∧ indexed.find? name = none := by
  rw [nextId] at next_eq
  split at next_eq
  · cases next_eq
  · rename_i unknown
    split at next_eq
    · rename_i inside
      cases next_eq
      exact ⟨UInt16.toNat_ofNat_of_lt' inside, Option.not_isSome_iff_eq_none.mp unknown⟩
    · cases next_eq

theorem Kept.answered (kept : indexed.Kept) (slots_eq : indexed.book.slots.toList = slots)
    (call : RuleCall) : indexed.Answered slots call := by
  subst slots_eq
  have known_iff : (indexed.find? call.slot.name).isSome = true ↔
      Taken indexed.book.slots.toList call := kept.isSome_find?
  refine ⟨?_, ?_, ?_, ?_⟩
  · intro taken
    rw [perform, nextId, if_pos (known_iff.mpr taken)]
  · intro free full
    rw [perform, nextId, if_neg (mt known_iff.mp free), if_neg]
    rw [size, ← Array.length_toList, full]
    exact Nat.lt_irrefl _
  · intro free room
    rw [Array.length_toList] at room ⊢
    refine ⟨UInt16.ofNat indexed.book.size, UInt16.toNat_ofNat_of_lt' room, ?_⟩
    rw [perform, nextId, if_neg (mt known_iff.mp free), if_pos (by rw [size]; exact room)]
    exact ⟨rfl, by rw [slots_put, Array.toList_push]⟩
  · intro failure failed
    rcases indexed.perform_cases call with ⟨id, -, performed⟩ | ⟨_, -, performed⟩
    · rw [performed] at failed
      cases failed
    · rw [performed]

/-- A call keeps the tables in agreement. -/
theorem Kept.after (kept : indexed.Kept) (call : RuleCall) : (indexed.after call).Kept := by
  rw [IndexedRulebook.after]
  rcases indexed.perform_cases call with ⟨id, next_eq, performed⟩ | ⟨_, -, performed⟩
  · rcases nextId_eq_ok next_eq with ⟨last, unknown⟩
    rw [performed]
    exact kept.put last unknown
  · rw [performed]
    exact kept

theorem Kept.slots_after (kept : indexed.Kept) (call : RuleCall) :
    (indexed.after call).book.slots.toList = extend indexed.book.slots.toList call := by
  have answered := kept.answered rfl call
  have short : indexed.book.slots.toList.length ≤ 65536 := by
    rw [Array.length_toList]
    exact kept.short
  rw [extend, IndexedRulebook.after]
  by_cases taken : Taken indexed.book.slots.toList call
  · rw [if_pos (.inl taken), answered.duplicate taken]
  · by_cases full : indexed.book.slots.toList.length = 65536
    · rw [if_pos (.inr full), answered.exhausted taken full]
    · rcases answered.accepted taken (Nat.lt_of_le_of_ne short full) with ⟨id, -, -, slots_eq⟩
      rw [if_neg (not_or_intro taken full), slots_eq]

/-- Calls change no slot that is in use. -/
theorem Kept.slot?_foldl (kept : indexed.Kept) (calls : List RuleCall) {slot : RuleSlot}
    (found : indexed.book.slot? id = some slot) :
    (calls.foldl IndexedRulebook.after indexed).book.slot? id = some slot := by
  induction calls generalizing indexed with
  | nil => exact found
  | cons call rest ih =>
      refine ih (kept.after call) ?_
      have later := kept.slots_after call
      rw [slot?, ← Array.getElem?_toList] at found ⊢
      rw [later, extend]
      split
      · exact found
      · rw [List.getElem?_append_left (List.getElem?_eq_some_iff.mp found).1]
        exact found

end After

theorem Kept.foldl (kept : indexed.Kept) (calls : List RuleCall) :
    (calls.foldl IndexedRulebook.after indexed).Kept ∧
      (calls.foldl IndexedRulebook.after indexed).book.slots.toList =
        calls.foldl extend indexed.book.slots.toList := by
  induction calls generalizing indexed with
  | nil => exact ⟨kept, rfl⟩
  | cons call rest ih =>
      rw [List.foldl_cons, List.foldl_cons, ← kept.slots_after call]
      exact ih (kept.after call)

/-! ## Answers -/

/-- What the tables tell about numbers and names, each in terms of the others. -/
structure Answers (indexed : IndexedRulebook) : Prop where
  /-- Names and numbers correspond to each other. -/
  names : ∀ {id name}, indexed.find? name = some id ↔ indexed.book.name? id = some name
  named : ∀ {id rule}, indexed.book.lookup id = .ok rule → indexed.book.name? id = some rule.name
  lookup : ∀ {id}, (∃ rule, indexed.book.lookup id = .ok rule) ↔
    ∃ rule source, indexed.book.slot? id = some (.active rule source)
  lookupName : ∀ {name id rule}, indexed.lookupName name = .ok (id, rule) ↔
    indexed.book.lookup id = .ok rule ∧ rule.name = name
  disjoint : ∀ {id}, ¬ (indexed.book.transformations.contains id = true ∧
    indexed.book.implementations.contains id = true)
  active : ∀ {id}, indexed.book.transformations.contains id = true ∨
    indexed.book.implementations.contains id = true ↔ ∃ rule, indexed.book.lookup id = .ok rule
  serving : ∀ {goal id}, (indexed.book.rulesFor goal).contains id = true ↔
    ∃ rule, indexed.book.lookup id = .ok rule ∧ rule.kind = goal.kind
  mask : ∀ {source id}, (indexed.book.mask source).contains id = true ↔
    ∃ rule scope, indexed.book.slot? id = some (.active rule scope) ∧
      (scope = none ∨ scope = source)
  mem_toList : ∀ {id rule}, (id, rule) ∈ indexed.book.toList ↔ indexed.book.lookup id = .ok rule
  ascending : (indexed.book.toList.map Prod.fst).Pairwise (· < ·)
  described : indexed.book.describe.map RuleSummary.id =
    (List.range indexed.book.size).map UInt16.ofNat
  /-- A description of a number says what the other tables say. -/
  summary : ∀ {summary}, summary ∈ indexed.book.describe →
    indexed.book.name? summary.id = some summary.name ∧
    (summary.retired = true → indexed.book.lookup summary.id =
      .error (.retiredRule summary.id summary.name) ∧ summary.kind = none ∧
        summary.source = none) ∧
    (summary.retired = false → ∃ rule, indexed.book.lookup summary.id = .ok rule ∧
      summary.kind = some rule.kind ∧ ∀ source,
        ((indexed.book.mask source).contains summary.id = true ↔
          summary.source = none ∨ summary.source = source))

section Answers

variable (kept : indexed.Kept)

include kept

theorem Kept.names {name : String} :
    indexed.find? name = some id ↔ indexed.book.name? id = some name := by
  rw [kept.numbers, name?_eq_some]

theorem Kept.serving_iff (goal : Goal) : (indexed.book.rulesFor goal).contains id = true ↔
    ∃ rule, indexed.book.lookup id = .ok rule ∧ rule.kind = goal.kind := by
  rw [kept.serving]
  constructor
  · rintro ⟨_ | _, found, kind_eq⟩
    · exact ⟨_, lookup_eq_ok.mpr ⟨_, found⟩, kind_eq⟩
    · exact kind_eq.elim
  · rintro ⟨rule, lookup_eq, kind_eq⟩
    rcases lookup_eq_ok.mp lookup_eq with ⟨source, found⟩
    exact ⟨_, found, kind_eq⟩

theorem Kept.mask_iff {source : Option String} :
    (indexed.book.mask source).contains id = true ↔
      ∃ rule scope, indexed.book.slot? id = some (.active rule scope) ∧
        (scope = none ∨ scope = source) := by
  have holds_isFor (scope : Option String) : indexed.book.Holds id (RuleSlot.IsFor scope) ↔
      ∃ rule, indexed.book.slot? id = some (.active rule scope) := by
    constructor
    · rintro ⟨_ | _, found, same⟩
      · cases same
        exact ⟨_, found⟩
      · exact same.elim
    · rintro ⟨rule, found⟩
      exact ⟨_, found, rfl⟩
  rw [contains_mask, kept.unrestricted, holds_isFor]
  constructor
  · rintro (⟨rule, found⟩ | ⟨name, rfl, member⟩)
    · exact ⟨rule, none, found, .inl rfl⟩
    · rw [kept.restricted, holds_isFor] at member
      rcases member with ⟨rule, found⟩
      exact ⟨rule, some name, found, .inr rfl⟩
  · rintro ⟨rule, scope, found, rfl | rfl⟩
    · exact .inl ⟨rule, found⟩
    · cases scope with
      | none => exact .inl ⟨rule, found⟩
      | some name =>
          refine .inr ⟨name, rfl, ?_⟩
          rw [kept.restricted, holds_isFor]
          exact ⟨rule, found⟩

theorem Kept.lookupName_iff {name : String} {rule : Rule} :
    indexed.lookupName name = .ok (id, rule) ↔
      indexed.book.lookup id = .ok rule ∧ rule.name = name := by
  have named {other : RuleId} (lookup_eq : indexed.book.lookup other = .ok rule) :
      indexed.find? rule.name = some other := by
    rcases lookup_eq_ok.mp lookup_eq with ⟨source, found⟩
    exact kept.numbers.mpr ⟨_, found, rfl⟩
  rw [lookupName]
  constructor
  · intro looked_up
    cases found : indexed.find? name with
    | none =>
        rw [found] at looked_up
        cases looked_up
    | some other =>
        rw [found] at looked_up
        dsimp only at looked_up
        cases lookup_eq : indexed.book.lookup other with
        | error failure =>
            rw [lookup_eq] at looked_up
            cases looked_up
        | ok held =>
            rw [lookup_eq] at looked_up
            cases looked_up
            have held_name := kept.names.mp (named lookup_eq)
            rw [kept.names.mp found] at held_name
            exact ⟨lookup_eq, (Option.some.inj held_name).symm⟩
  · rintro ⟨lookup_eq, rfl⟩
    rw [named lookup_eq]
    simp only [lookup_eq, Except.map]

theorem Kept.summary {description : RuleSummary}
    (description_mem : description ∈ indexed.book.describe) :
    indexed.book.name? description.id = some description.name ∧
    (description.retired = true → indexed.book.lookup description.id =
      .error (.retiredRule description.id description.name) ∧ description.kind = none ∧
        description.source = none) ∧
    (description.retired = false → ∃ rule, indexed.book.lookup description.id = .ok rule ∧
      description.kind = some rule.kind ∧ ∀ source,
        ((indexed.book.mask source).contains description.id = true ↔
          description.source = none ∨ description.source = source)) := by
  rcases exists_of_mem_describe kept.short description_mem with ⟨slot, found, description_eq⟩
  generalize description.id = id at found description_eq ⊢
  subst description_eq
  cases slot with
  | active rule scope =>
      refine ⟨name?_eq_some.mpr ⟨_, found, rfl⟩, fun retired => (by cases retired), fun _ => ?_⟩
      refine ⟨rule, lookup_eq_ok.mpr ⟨scope, found⟩, rfl, fun source => ?_⟩
      rw [kept.mask_iff, found]
      constructor
      · rintro ⟨_, _, same, isFor⟩
        cases same
        exact isFor
      · exact fun isFor => ⟨rule, scope, rfl, isFor⟩
  | retired name =>
      refine ⟨name?_eq_some.mpr ⟨_, found, rfl⟩, fun _ => ⟨?_, rfl, rfl⟩,
        fun active => (by cases active)⟩
      rw [Rulebook.lookup, found]
      rfl

theorem Kept.answers : indexed.Answers where
  names := kept.names
  named := by
    intro id rule lookup_eq
    rcases lookup_eq_ok.mp lookup_eq with ⟨source, found⟩
    exact name?_eq_some.mpr ⟨_, found, rfl⟩
  lookup := exists_congr fun _ => lookup_eq_ok
  lookupName := kept.lookupName_iff
  disjoint := by
    rintro id ⟨transforming, implementing⟩
    rcases (kept.serving_iff .explore).mp transforming with ⟨rule, rule_eq, kind_eq⟩
    rcases (kept.serving_iff .implement).mp implementing with ⟨other, other_eq, other_kind⟩
    cases rule_eq.symm.trans other_eq
    cases kind_eq.symm.trans other_kind
  active := by
    intro id
    constructor
    · rintro (transforming | implementing)
      · exact ((kept.serving_iff .explore).mp transforming).imp fun _ => And.left
      · exact ((kept.serving_iff .implement).mp implementing).imp fun _ => And.left
    · rintro ⟨rule, lookup_eq⟩
      cases kind_eq : rule.kind with
      | transformation =>
          exact .inl ((kept.serving_iff .explore).mpr ⟨rule, lookup_eq, kind_eq⟩)
      | implementation =>
          exact .inr ((kept.serving_iff .implement).mpr ⟨rule, lookup_eq, kind_eq⟩)
  serving := kept.serving_iff _
  mask := kept.mask_iff
  mem_toList := mem_toList kept.short
  ascending := ascending_toList kept.short
  described := ids_describe
  summary := kept.summary

/-- Calls change nothing about the numbers and names that are in use. -/
theorem Kept.stable (calls : List RuleCall) :
    (∀ id, (indexed.book.name? id).isSome = true →
      (calls.foldl IndexedRulebook.after indexed).book.name? id = indexed.book.name? id ∧
      (calls.foldl IndexedRulebook.after indexed).book.lookup id = indexed.book.lookup id) ∧
    (∀ name, (indexed.find? name).isSome = true →
      (calls.foldl IndexedRulebook.after indexed).find? name = indexed.find? name ∧
      (calls.foldl IndexedRulebook.after indexed).lookupName name = indexed.lookupName name) := by
  have by_number {id : RuleId} {slot : RuleSlot} (found : indexed.book.slot? id = some slot) :
      (calls.foldl IndexedRulebook.after indexed).book.name? id = indexed.book.name? id ∧
      (calls.foldl IndexedRulebook.after indexed).book.lookup id = indexed.book.lookup id := by
    have later := kept.slot?_foldl calls found
    exact ⟨by rw [name?, later, name?, found], by rw [Rulebook.lookup, later, Rulebook.lookup, found]⟩
  refine ⟨?_, ?_⟩
  · intro id known
    rcases Option.isSome_iff_exists.mp known with ⟨name, name_eq⟩
    rcases name?_eq_some.mp name_eq with ⟨slot, found, -⟩
    exact by_number found
  · intro name known
    rcases Option.isSome_iff_exists.mp known with ⟨id, find_eq⟩
    rcases kept.numbers.mp find_eq with ⟨slot, found, -⟩
    have later_eq : (calls.foldl IndexedRulebook.after indexed).find? name = some id := by
      rw [(kept.foldl calls).1.names, (by_number found).1]
      exact kept.names.mp find_eq
    refine ⟨later_eq.trans find_eq.symm, ?_⟩
    rw [lookupName, later_eq, lookupName, find_eq]
    simp only [(by_number found).2]

end Answers

/--
Whatever has been called, the slots are those of the calls that were not rejected, in call order,
and all tables agree on them. The next call gets the number that follows, or is rejected and changes
nothing, and no later call changes what a number or a name stands for. The rulebook that keeps no
table of the names gives the same answers.
-/
theorem history_consistent (calls : List RuleCall) :
    (history calls).book.slots.toList = slotsOf calls ∧
    (history calls).Answers ∧
    (∀ call, (history calls).Answered (slotsOf calls) call) ∧
    (∀ later,
      (∀ id, ((history calls).book.name? id).isSome = true →
        (history (calls ++ later)).book.name? id = (history calls).book.name? id ∧
        (history (calls ++ later)).book.lookup id = (history calls).book.lookup id) ∧
      (∀ name, ((history calls).find? name).isSome = true →
        (history (calls ++ later)).find? name = (history calls).find? name ∧
        (history (calls ++ later)).lookupName name = (history calls).lookupName name)) ∧
    (∀ name, (history calls).book.find? name = (history calls).find? name ∧
      (history calls).book.lookupName name = (history calls).lookupName name) ∧
    ∀ call, (history calls).book.perform call =
      (((history calls).perform call).1.book, ((history calls).perform call).2) := by
  rcases Kept.empty.foldl calls with ⟨kept, slots_eq⟩
  refine ⟨slots_eq, kept.answers, kept.answered slots_eq, ?_, ?_, kept.perform_eq⟩
  · intro later
    rw [history, history, List.foldl_append]
    exact kept.stable later
  · exact fun name => ⟨kept.find?_eq name, kept.lookupName_eq name⟩

end IndexedRulebook

end Cascades
