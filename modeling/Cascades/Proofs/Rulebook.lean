import Cascades.Proofs.RuleSet
import Cascades.Rulebook

/-!
# Rulebooks that arise by registration

Registering a rule adds its number to the set of its kind and changes no number that was given
before. So the rules that serve a goal are active rules of the kind that belongs to the goal, and no
rule serves both goals.
-/

namespace Cascades

/-- The kind of the rules that serve a goal. -/
def Goal.kind : Goal → RuleKind
  | .explore => .transformation
  | .implement => .implementation

namespace Rulebook

/-- A rulebook that arises by registering and retiring rules, whether a number was given or not. -/
inductive Registered : Rulebook → Prop
  | empty : Registered empty
  | register {book : Rulebook} (rule : Rule) (source : Option String) :
      Registered book → Registered (book.register rule source).1
  | retire {book : Rulebook} (name : String) : Registered book → Registered (book.retire name).1

/-- The sets of rules that serve the goals hold active rules of the right kind. -/
structure Kinded (book : Rulebook) : Prop where
  bounded : ∀ goal, (book.rulesFor goal).Bounded
  active : ∀ {goal id}, (book.rulesFor goal).contains id = true →
    ∃ rule source, book.slot? id = some (.active rule source) ∧ rule.kind = goal.kind

variable {book : Rulebook} {id : RuleId}

/-- A new number follows all those in use. -/
theorem toNat_nextId {name : String} (next_eq : book.nextId name = .ok id) :
    id.toNat = book.slots.size := by
  rw [nextId] at next_eq
  split at next_eq
  · cases next_eq
  · split at next_eq
    · rename_i inside
      cases next_eq
      exact UInt16.toNat_ofNat_of_lt' inside
    · cases next_eq

/-- A slot is put into the rulebook under the next number, or nothing is changed. -/
theorem add_cases (book : Rulebook) (slot : RuleSlot) :
    (∃ id, book.nextId slot.name = .ok id ∧ book.add slot = (book.put id slot, .ok id)) ∨
      ∃ failure, book.nextId slot.name = .error failure ∧ book.add slot = (book, .error failure) := by
  rw [add]
  cases book.nextId slot.name with
  | ok id => exact .inl ⟨id, rfl, rfl⟩
  | error failure => exact .inr ⟨failure, rfl, rfl⟩

theorem slots_put (slot : RuleSlot) : (book.put id slot).slots = book.slots.push slot := by
  cases slot <;> rfl

/-- Only the number of the new slot stands for something else than before. -/
theorem slot?_put (last : id.toNat = book.slots.size) (slot : RuleSlot) (other : RuleId) :
    (book.put id slot).slot? other = if other = id then some slot else book.slot? other := by
  rw [slot?, slots_put, Array.getElem?_push]
  simp only [← last, UInt16.toNat_inj, slot?]

/-- A rule joins the rules of its kind. -/
theorem rulesFor_put_active {rule : Rule} {source : Option String} (goal : Goal) :
    (book.put id (.active rule source)).rulesFor goal =
      if rule.kind = goal.kind then (book.rulesFor goal).insert id else book.rulesFor goal := by
  cases goal <;> cases kind_eq : rule.kind <;> simp [put, rulesFor, Goal.kind, kind_eq]

theorem rulesFor_put_retired {name : String} (goal : Goal) :
    (book.put id (.retired name)).rulesFor goal = book.rulesFor goal := by
  cases goal <;> rfl

theorem Kinded.put (kinded : book.Kinded) (last : id.toNat = book.slots.size) (slot : RuleSlot) :
    (book.put id slot).Kinded := by
  have earlier {goal : Goal} {other : RuleId} (member : (book.rulesFor goal).contains other = true) :
      ∃ rule source, (book.put id slot).slot? other = some (.active rule source) ∧
        rule.kind = goal.kind := by
    rcases kinded.active member with ⟨held, held_source, found, kind_eq⟩
    have inside : other.toNat < book.slots.size := (Array.getElem?_eq_some_iff.mp found).1
    have older : other ≠ id := by
      rintro rfl
      exact Nat.ne_of_lt inside last
    exact ⟨held, held_source, by rw [slot?_put last, if_neg older, found], kind_eq⟩
  cases slot with
  | retired name =>
      refine ⟨fun goal => ?_, fun {goal other} member => ?_⟩
      · rw [rulesFor_put_retired]
        exact kinded.bounded goal
      · rw [rulesFor_put_retired] at member
        exact earlier member
  | active rule source =>
      refine ⟨fun goal => ?_, fun {goal other} member => ?_⟩
      · rw [rulesFor_put_active]
        split
        · exact (kinded.bounded goal).insert id
        · exact kinded.bounded goal
      · rw [rulesFor_put_active] at member
        split at member
        · rename_i kind_eq
          rw [RuleSet.contains_insert, Bool.or_eq_true, beq_iff_eq] at member
          rcases member with old | rfl
          · exact earlier old
          · exact ⟨rule, source, by rw [slot?_put last, if_pos rfl], kind_eq⟩
        · exact earlier member

theorem Kinded.add (kinded : book.Kinded) (slot : RuleSlot) : (book.add slot).1.Kinded := by
  rcases add_cases book slot with ⟨id, next_eq, added⟩ | ⟨failure, -, refused⟩
  · rw [added]
    exact kinded.put (toNat_nextId next_eq) slot
  · rw [refused]
    exact kinded

theorem Registered.kinded (registered : book.Registered) : book.Kinded := by
  induction registered with
  | empty =>
      refine ⟨fun goal => ?_, fun {goal id} member => ?_⟩
      · cases goal <;> exact RuleSet.bounded_empty
      · cases goal <;> exact (Bool.false_ne_true ((RuleSet.contains_empty id).symm.trans member)).elim
  | register rule source _ ih => exact ih.add (.active rule source)
  | retire name _ ih => exact ih.add (.retired name)

/-- A rule that serves a goal can be looked up and has the kind of the goal. -/
theorem Kinded.lookup (kinded : book.Kinded) {goal : Goal}
    (member : (book.rulesFor goal).contains id = true) :
    ∃ rule, book.lookup id = .ok rule ∧ rule.kind = goal.kind := by
  rcases kinded.active member with ⟨rule, source, found, kind_eq⟩
  exact ⟨rule, by rw [Rulebook.lookup, found], kind_eq⟩

/-- No rule serves both goals. -/
theorem Kinded.goal_unique (kinded : book.Kinded) {first second : Goal}
    (first_member : (book.rulesFor first).contains id = true)
    (second_member : (book.rulesFor second).contains id = true) : first = second := by
  rcases kinded.lookup first_member with ⟨rule, rule_eq, kind_eq⟩
  rcases kinded.lookup second_member with ⟨other, other_eq, other_kind⟩
  rw [rule_eq] at other_eq
  cases other_eq
  rw [kind_eq] at other_kind
  cases first <;> cases second <;> first | rfl | cases other_kind

end Rulebook

end Cascades
