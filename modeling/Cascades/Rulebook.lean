import Cascades.Failure
import Cascades.Rule.Basic

/-!
# Rulebooks

A rulebook numbers rules in the order of their registration. A number is never given to another
rule: a rule that no longer exists keeps its number and its name as a retired one. Names are unique
over active and retired rules.

A rule may be restricted to a source. The rules that are active for a source are the unrestricted
ones and its own.
-/

namespace Cascades

/-- What a number of a rulebook stands for. -/
inductive RuleSlot where
  | active (rule : Rule) (source : Option String)
  | retired (name : String)

/-- The name of the rule that has the number or had it. -/
def RuleSlot.name : RuleSlot → String
  | .active rule _ => rule.name
  | .retired name => name

/--
The rules by their numbers, with the sets of the active rules of either kind, of the unrestricted
ones, and of those restricted to each source.
-/
structure Rulebook where
  slots : Array RuleSlot
  transformations : RuleSet
  implementations : RuleSet
  unrestricted : RuleSet
  restricted : List (String × RuleSet)

/-- What a rulebook tells about a number. -/
structure RuleSummary where
  id : RuleId
  name : String
  kind : Option RuleKind
  source : Option String
  retired : Bool

namespace Rulebook

/-- The rulebook in which no number is used. -/
def empty : Rulebook :=
  ⟨#[], .empty, .empty, .empty, []⟩

/-- The number of numbers in use. -/
def size (book : Rulebook) : Nat :=
  book.slots.size

/-- What a number stands for, if it is in use. -/
def slot? (book : Rulebook) (id : RuleId) : Option RuleSlot :=
  book.slots[id.toNat]?

/-- The name of an active or retired rule. -/
def name? (book : Rulebook) (id : RuleId) : Option String :=
  (book.slot? id).map RuleSlot.name

/-- The number of the active or retired rule of a name. -/
def find? (book : Rulebook) (name : String) : Option RuleId :=
  (book.slots.findIdx? fun slot => slot.name == name).map UInt16.ofNat

/-- The number that a rule of the given name would get. -/
def nextId (book : Rulebook) (name : String) : Except Failure RuleId :=
  if (book.find? name).isSome then .error (.duplicateRule name)
  else if book.size < UInt16.size then .ok (UInt16.ofNat book.size)
  else .error (.corrupted .ruleNumbersExhausted)

/-- The rules restricted to a source, if it has any. -/
def restrictedTo? (book : Rulebook) (source : String) : Option RuleSet :=
  book.restricted.lookup source

/-- Adds a rule to those of a source. -/
def restrict (restricted : List (String × RuleSet)) (source : String) (id : RuleId) :
    List (String × RuleSet) :=
  match restricted with
  | [] => [(source, RuleSet.empty.insert id)]
  | (name, rules) :: rest =>
      if name = source then (name, rules.insert id) :: rest
      else (name, rules) :: restrict rest source id

/-- The rulebook with one more slot, whose number is also entered in the sets. -/
def put (book : Rulebook) (id : RuleId) : RuleSlot → Rulebook
  | .active rule source =>
      { slots := book.slots.push (.active rule source)
        transformations :=
          match rule.kind with
          | .transformation => book.transformations.insert id
          | .implementation => book.transformations
        implementations :=
          match rule.kind with
          | .transformation => book.implementations
          | .implementation => book.implementations.insert id
        unrestricted :=
          match source with
          | some _ => book.unrestricted
          | none => book.unrestricted.insert id
        restricted :=
          match source with
          | some source => restrict book.restricted source id
          | none => book.restricted }
  | .retired name => { book with slots := book.slots.push (.retired name) }

/-- Gives the next number to a slot. Where there is none to give, the rulebook stays as it is. -/
def add (book : Rulebook) (slot : RuleSlot) : Rulebook × Except Failure RuleId :=
  match book.nextId slot.name with
  | .ok id => (book.put id slot, .ok id)
  | .error failure => (book, .error failure)

/-- Gives the next number to a rule, which may be restricted to a source. -/
def register (book : Rulebook) (rule : Rule) (source : Option String) :
    Rulebook × Except Failure RuleId :=
  book.add (.active rule source)

/-- Gives the next number to a rule that no longer exists. -/
def retire (book : Rulebook) (name : String) : Rulebook × Except Failure RuleId :=
  book.add (.retired name)

/-- The active rule of a number. -/
def lookup (book : Rulebook) (id : RuleId) : Except Failure Rule :=
  match book.slot? id with
  | some (.active rule _) => .ok rule
  | some (.retired name) => .error (.retiredRule id name)
  | none => .error (.unknownRule id)

/-- The active rule of a name, with its number. -/
def lookupName (book : Rulebook) (name : String) : Except Failure (RuleId × Rule) :=
  match book.find? name with
  | some id => (book.lookup id).map fun rule => (id, rule)
  | none => .error (.unknownRuleName name)

/-- The rules that are active for a source. -/
def mask (book : Rulebook) (source : Option String) : RuleSet :=
  match source.bind book.restrictedTo? with
  | some rules => book.unrestricted.union rules
  | none => book.unrestricted

/-- Whether a rule may be applied to an expression of the given origin. -/
def isCompatible (book : Rulebook) (rule : RuleId) (origin : Option RuleId) : Bool :=
  match origin with
  | none => true
  | some origin =>
      match book.lookup rule, book.name? origin with
      | .ok rule, some name => !rule.incompatible.contains name
      | _, _ => true

/-- The rules of a kind, by the goal they serve. -/
def rulesFor (book : Rulebook) : Goal → RuleSet
  | .explore => book.transformations
  | .implement => book.implementations

/-- The active rules in the order of their numbers. -/
def toList (book : Rulebook) : List (RuleId × Rule) :=
  (book.slots.toList.mapIdx fun position slot => (UInt16.ofNat position, slot)).filterMap
    fun (id, slot) =>
      match slot with
      | .active rule _ => some (id, rule)
      | .retired _ => none

/-- What is told about a number that stands for the given slot. -/
def summary (id : RuleId) : RuleSlot → RuleSummary
  | .active rule source => ⟨id, rule.name, some rule.kind, source, false⟩
  | .retired name => ⟨id, name, none, none, true⟩

/-- Every number in use, in order. -/
def describe (book : Rulebook) : List RuleSummary :=
  book.slots.toList.mapIdx fun position slot => summary (UInt16.ofNat position) slot

end Rulebook

end Cascades
