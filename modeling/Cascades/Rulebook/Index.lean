import Cascades.Rulebook

/-!
# An index of the names

Instead of searching the slots for a name, a rulebook can keep a table with the number of every
name. A call for a number asks the table whether the name is taken, and enters the name there when
it is not.
-/

namespace Cascades

/-- A call that asks a rulebook for a number. -/
inductive RuleCall where
  /-- Registers a rule for every source. -/
  | register (rule : Rule)
  /-- Registers a rule for one source. -/
  | registerFor (source : String) (rule : Rule)
  /-- Reserves the number of a rule that no longer exists. -/
  | retire (name : String)

/-- What the number stands for that a call gets. -/
def RuleCall.slot : RuleCall → RuleSlot
  | .register rule => .active rule none
  | .registerFor source rule => .active rule (some source)
  | .retire name => .retired name

/-- A rulebook with the number of every name, a later entry in place of an earlier one. -/
structure IndexedRulebook where
  book : Rulebook
  numbers : List (String × RuleId)

namespace Rulebook

/-- Carries out a call. -/
def perform (book : Rulebook) : RuleCall → Rulebook × Except Failure RuleId
  | .register rule => book.register rule none
  | .registerFor source rule => book.register rule (some source)
  | .retire name => book.retire name

theorem perform_eq (book : Rulebook) (call : RuleCall) : book.perform call = book.add call.slot := by
  cases call <;> rfl

end Rulebook

namespace IndexedRulebook

/-- The rulebook in which no number is used, and no name. -/
def empty : IndexedRulebook :=
  ⟨.empty, []⟩

/-- The number of the active or retired rule of a name. -/
def find? (indexed : IndexedRulebook) (name : String) : Option RuleId :=
  indexed.numbers.lookup name

/-- The number that a rule of the given name would get. -/
def nextId (indexed : IndexedRulebook) (name : String) : Except Failure RuleId :=
  if (indexed.find? name).isSome then .error (.duplicateRule name)
  else if indexed.book.size < UInt16.size then .ok (UInt16.ofNat indexed.book.size)
  else .error (.corrupted .ruleNumbersExhausted)

/-- Carries out a call. A call that is rejected leaves the rulebook as it is. -/
def perform (indexed : IndexedRulebook) (call : RuleCall) :
    IndexedRulebook × Except Failure RuleId :=
  match indexed.nextId call.slot.name with
  | .ok id => (⟨indexed.book.put id call.slot, (call.slot.name, id) :: indexed.numbers⟩, .ok id)
  | .error failure => (indexed, .error failure)

/-- The active rule of a name, with its number. -/
def lookupName (indexed : IndexedRulebook) (name : String) : Except Failure (RuleId × Rule) :=
  match indexed.find? name with
  | some id => (indexed.book.lookup id).map fun rule => (id, rule)
  | none => .error (.unknownRuleName name)

/-- The rulebook after a call, accepted or rejected. -/
def after (indexed : IndexedRulebook) (call : RuleCall) : IndexedRulebook :=
  (indexed.perform call).1

/-- The rulebook that a sequence of calls leads to from the empty one. -/
def history (calls : List RuleCall) : IndexedRulebook :=
  calls.foldl after empty

end IndexedRulebook

end Cascades
