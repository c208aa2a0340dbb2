import Cascades.Proofs.Rulebook
import Cascades.Proofs.Rules.Transformations
import Cascades.Rules.Standard
import Cascades.Proofs.Search.Discipline
import Cascades.Search.Run

/-!
# The standard rules

For every source the standard rules 0 to 3 serve exploration and the rules 5 to 14 implementation.
Only commutativity has an incompatible rule, itself.
-/

namespace Cascades

namespace Rulebook

/-- The standard rulebook in full. -/
theorem standard_eq : standard = {
    slots := #[.active Rules.joinCommutativity none, .active Rules.joinAssociativity none,
      .active Rules.predicatePushdown none, .active Rules.projectionPushdown none,
      .retired "JoinAssociativityLegacy", .active Rules.hashJoin none, .active Rules.mergeJoin none,
      .active Rules.nestedLoopJoin none, .active Rules.seqScan none,
      .active Rules.hashAggregate none, .active Rules.streamAggregate none,
      .active Rules.sort none, .active Rules.filter none, .active Rules.project none,
      .active Rules.limit none]
    transformations := ⟨[0xf]⟩
    implementations := ⟨[0x7fe0]⟩
    unrestricted := ⟨[0x7fef]⟩
    restricted := [] } := by
  with_unfolding_all rfl

theorem Registered.registerAll {book larger : Rulebook} {rules : List Rule}
    (registered : book.Registered) (registerAll_eq : book.registerAll rules = .ok larger) :
    larger.Registered := by
  induction rules generalizing book with
  | nil =>
      cases registerAll_eq
      exact registered
  | cons rule rest ih =>
      rw [Rulebook.registerAll, List.foldlM_cons] at registerAll_eq
      cases answer_eq : (book.register rule none).2 with
      | error failure =>
          simp only [answer_eq] at registerAll_eq
          cases registerAll_eq
      | ok id =>
          simp only [answer_eq] at registerAll_eq
          exact ih (registered.register rule none) registerAll_eq

theorem registered_standard : standard.Registered := by
  rw [standard]
  cases standard_eq : standard? with
  | error failure => exact .empty
  | ok book =>
      rw [standard?] at standard_eq
      simp only [bind, Except.bind] at standard_eq
      split at standard_eq
      · cases standard_eq
      · rename_i early early_eq
        split at standard_eq
        · cases standard_eq
        · exact ((Registered.empty.registerAll early_eq).retire _).registerAll standard_eq

theorem mask_standard (source : Option String) : standard.mask source = ⟨[0x7fef]⟩ := by
  rw [standard_eq]
  cases source with
  | none => rfl
  | some source => rfl

end Rulebook

namespace Rules

/-- Rules with consecutive numbers. -/
def numberedFrom (first : Nat) : List Rule → List (RuleId × Rule)
  | [] => []
  | rule :: rest => (UInt16.ofNat first, rule) :: numberedFrom (first + 1) rest

/-- The transformations with their numbers. -/
def numberedTransformations : List (RuleId × Rule) :=
  numberedFrom 0 transformations

/-- The implementations with their numbers. -/
def numberedImplementations : List (RuleId × Rule) :=
  numberedFrom 5 implementations

theorem numberedTransformations_eq : numberedTransformations = [(UInt16.ofNat 0, joinCommutativity),
    (UInt16.ofNat 1, joinAssociativity), (UInt16.ofNat 2, predicatePushdown),
    (UInt16.ofNat 3, projectionPushdown)] :=
  rfl

theorem numberedImplementations_eq : numberedImplementations = [(UInt16.ofNat 5, hashJoin),
    (UInt16.ofNat 6, mergeJoin), (UInt16.ofNat 7, nestedLoopJoin), (UInt16.ofNat 8, seqScan),
    (UInt16.ofNat 9, hashAggregate), (UInt16.ofNat 10, streamAggregate), (UInt16.ofNat 11, sort),
    (UInt16.ofNat 12, filter), (UInt16.ofNat 13, project), (UInt16.ofNat 14, limit)] :=
  rfl

theorem exists_number {first : Nat} {rules : List Rule} {rule : Rule} (rule_mem : rule ∈ rules) :
    ∃ number, (number, rule) ∈ numberedFrom first rules := by
  induction rules generalizing first with
  | nil => cases rule_mem
  | cons other rest ih =>
      rcases List.mem_cons.mp rule_mem with rfl | rule_mem
      · exact ⟨_, List.mem_cons_self⟩
      · rcases ih rule_mem with ⟨number, pair_mem⟩
        exact ⟨number, List.mem_cons_of_mem _ pair_mem⟩

theorem kind_of_mem_transformations :
    ∀ pair ∈ numberedTransformations, pair.2.kind = .transformation := by
  simp [numberedTransformations_eq, joinCommutativity, joinAssociativity, predicatePushdown,
    projectionPushdown]

/-- The number of commutativity. -/
def commutativityId : RuleId :=
  UInt16.ofNat 0

end Rules

namespace Rulebook

open Rules

theorem lookup_standard {id : RuleId} {rule : Rule}
    (pair_mem : (id, rule) ∈ numberedTransformations ++ numberedImplementations) :
    standard.lookup id = .ok rule := by
  rw [standard_eq]
  rw [numberedTransformations_eq, numberedImplementations_eq] at pair_mem
  simp only [List.cons_append, List.nil_append, List.mem_cons, List.not_mem_nil, or_false,
    Prod.mk.injEq] at pair_mem
  rcases pair_mem with ⟨rfl, rfl⟩ | ⟨rfl, rfl⟩ | ⟨rfl, rfl⟩ | ⟨rfl, rfl⟩ | ⟨rfl, rfl⟩ |
    ⟨rfl, rfl⟩ | ⟨rfl, rfl⟩ | ⟨rfl, rfl⟩ | ⟨rfl, rfl⟩ | ⟨rfl, rfl⟩ | ⟨rfl, rfl⟩ | ⟨rfl, rfl⟩ |
    ⟨rfl, rfl⟩ | ⟨rfl, rfl⟩ <;> rfl

theorem lookup_transformation {id : RuleId} {rule : Rule}
    (pair_mem : (id, rule) ∈ numberedTransformations) : standard.lookup id = .ok rule :=
  lookup_standard (List.mem_append_left numberedImplementations pair_mem)

theorem lookup_implementation {id : RuleId} {rule : Rule}
    (pair_mem : (id, rule) ∈ numberedImplementations) : standard.lookup id = .ok rule :=
  lookup_standard (List.mem_append_right numberedTransformations pair_mem)

/-- A rule that can be looked up is one of the numbered ones. -/
theorem mem_numbered {id : RuleId} {rule : Rule} (lookup_eq : standard.lookup id = .ok rule) :
    ∃ number, (number, rule) ∈ numberedTransformations ++ numberedImplementations := by
  have slots_eq : standard.slots.toList = Rules.transformations.map (RuleSlot.active · none) ++
      .retired "JoinAssociativityLegacy" :: Rules.implementations.map (RuleSlot.active · none) := by
    rw [standard_eq]
    rfl
  rw [lookup] at lookup_eq
  split at lookup_eq
  · rename_i held source slot_eq
    cases lookup_eq
    have slot_mem : RuleSlot.active rule source ∈ standard.slots.toList :=
      Array.mem_toList_iff.mpr (Array.mem_of_getElem? slot_eq)
    rw [slots_eq, List.mem_append, List.mem_cons] at slot_mem
    rcases slot_mem with transforms | absurd | implements
    · rcases List.mem_map.mp transforms with ⟨transformation, transformation_mem, same⟩
      cases same
      rcases exists_number transformation_mem with ⟨number, pair_mem⟩
      exact ⟨number, List.mem_append_left _ pair_mem⟩
    · cases absurd
    · rcases List.mem_map.mp implements with ⟨implementation, implementation_mem, same⟩
      cases same
      rcases exists_number implementation_mem with ⟨number, pair_mem⟩
      exact ⟨number, List.mem_append_right _ pair_mem⟩
  · cases lookup_eq
  · cases lookup_eq

/-- An implementation that can be looked up is one of the numbered ones. -/
theorem mem_implementations {id : RuleId} {rule : Rule} (lookup_eq : standard.lookup id = .ok rule)
    (kind_eq : rule.kind = .implementation) : ∃ number, (number, rule) ∈ numberedImplementations := by
  rcases mem_numbered lookup_eq with ⟨number, pair_mem⟩
  rcases List.mem_append.mp pair_mem with transforms | implements
  · rw [kind_of_mem_transformations _ transforms] at kind_eq
    cases kind_eq
  · exact ⟨number, implements⟩

/-- Commutativity is the only rule of its name. -/
theorem name?_commutativity {id : RuleId}
    (name_eq : standard.name? id = some "JoinCommutativity") : id = commutativityId := by
  have named : (standard.slots.toList.map RuleSlot.name)[id.toNat]? = some "JoinCommutativity" := by
    rw [← name_eq]
    simp [name?, slot?]
  rw [standard_eq] at named
  rcases List.getElem?_eq_some_iff.mp named with ⟨bounded, found⟩
  have only : ∀ place : Fin 15, ["JoinCommutativity", "JoinAssociativity", "PredicatePushdown",
      "ProjectionPushdown", "JoinAssociativityLegacy", "ImplHashJoin", "ImplMergeJoin",
      "ImplNestedLoopJoin", "ImplSeqScan", "ImplHashAggregate", "ImplStreamAggregate", "ImplSort",
      "ImplFilter", "ImplProject", "ImplLimit"][place] = "JoinCommutativity" → place = 0 := by
    decide
  have place_eq : id.toNat = 0 := congrArg Fin.val (only ⟨id.toNat, bounded⟩ found)
  exact UInt16.toNat_inj.mp place_eq

end Rulebook

section Phases

variable (catalog : Catalog) (config : SearchConfig)

theorem phase_explore : (Memo.context .standard catalog config).phase .explore =
    Rules.numberedTransformations.map Prod.fst := by
  have rules_eq : Rulebook.standard.rulesFor .explore = ⟨[0xf]⟩ := by
    rw [Rulebook.standard_eq]
    rfl
  have phase_eq : (Memo.context .standard catalog config).phase .explore =
      ((Rulebook.standard.rulesFor .explore).intersection
        (Rulebook.standard.mask config.source)).toList := rfl
  rw [phase_eq, rules_eq, Rulebook.mask_standard]
  decide +kernel

theorem phase_implement : (Memo.context .standard catalog config).phase .implement =
    Rules.numberedImplementations.map Prod.fst := by
  have rules_eq : Rulebook.standard.rulesFor .implement = ⟨[0x7fe0]⟩ := by
    rw [Rulebook.standard_eq]
    rfl
  have phase_eq : (Memo.context .standard catalog config).phase .implement =
      ((Rulebook.standard.rulesFor .implement).intersection
        (Rulebook.standard.mask config.source)).toList := rfl
  rw [phase_eq, rules_eq, Rulebook.mask_standard]
  decide +kernel

/-- No rule serves both goals. -/
theorem phases_disjoint {id : RuleId} {first second : Rule}
    (implements : (id, first) ∈ Rules.numberedImplementations)
    (transforms : (id, second) ∈ Rules.numberedTransformations) : False := by
  have below : ∀ number ∈ Rules.numberedTransformations.map (·.1.toNat), number < 4 := by
    decide
  have above : ∀ number ∈ Rules.numberedImplementations.map (·.1.toNat), 4 < number := by
    decide
  have lower := below id.toNat (List.mem_map.mpr ⟨_, transforms, rfl⟩)
  have upper := above id.toNat (List.mem_map.mpr ⟨_, implements, rfl⟩)
  omega

end Phases

namespace Rules

variable {catalog : Catalog}

theorem steady_of_mem {id : RuleId} {rule : Rule} (pair_mem : (id, rule) ∈ numberedTransformations) :
    rule.Steady catalog := by
  simp only [numberedTransformations_eq, List.mem_cons, List.not_mem_nil, or_false,
    Prod.mk.injEq] at pair_mem
  rcases pair_mem with ⟨-, rfl⟩ | ⟨-, rfl⟩ | ⟨-, rfl⟩ | ⟨-, rfl⟩
  · exact joinCommutativity_steady
  · exact joinAssociativity_steady
  · exact predicatePushdown_steady
  · exact projectionPushdown_steady

/-- A transformation is compatible with every origin, commutativity with its own results excepted. -/
theorem isCompatible_standard {id : RuleId} {rule : Rule} {origin : Option RuleId}
    (pair_mem : (id, rule) ∈ numberedTransformations)
    (incompatible : Rulebook.standard.isCompatible id origin = false) :
    rule = joinCommutativity ∧ origin = some commutativityId := by
  cases origin with
  | none => cases incompatible
  | some producer =>
      rw [Rulebook.isCompatible, Rulebook.lookup_transformation pair_mem] at incompatible
      split at incompatible
      · rename_i held name lookup_eq name_eq
        cases lookup_eq
        simp only [numberedTransformations_eq, List.mem_cons, List.not_mem_nil, or_false,
          Prod.mk.injEq] at pair_mem
        rcases pair_mem with ⟨-, rfl⟩ | ⟨-, rfl⟩ | ⟨-, rfl⟩ | ⟨-, rfl⟩
        · have same : name = "JoinCommutativity" := by simpa [joinCommutativity] using incompatible
          rw [same] at name_eq
          rw [Rulebook.name?_commutativity name_eq]
          exact ⟨rfl, rfl⟩
        · simp [joinAssociativity] at incompatible
        · simp [predicatePushdown] at incompatible
        · simp [projectionPushdown] at incompatible
      · cases incompatible

end Rules

end Cascades
