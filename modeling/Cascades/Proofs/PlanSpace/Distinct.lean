import Cascades.Proofs.PlanSpace.Exactness

/-!
# Different ranks give different plans

The memo stores no shape twice, so from its inputs upwards a plan is determined by its operators
alone: plans with the same operators start from the same groups and are the same. Since different
ranks give different plans, they give plans that even differ in their operators.
-/

namespace Cascades

namespace Plan

mutual

/-- Two plans have the same operators, whatever the numbers of their groups and expressions. -/
def Alike : Plan → Plan → Prop
  | .node _ _ operator children, .node _ _ other others =>
      operator.same other = true ∧ AllAlike children others

/-- The plans of two lists are alike in pairs. -/
def AllAlike : List Plan → List Plan → Prop
  | [], [] => True
  | plan :: rest, other :: others => plan.Alike other ∧ AllAlike rest others
  | _, _ => False

end

end Plan

namespace Memo

variable {memo : Memo} {kind : PlanKind}

mutual

/-- Plans with the same operators are plans of the same group, and the same. -/
theorem eq_of_alike (consistent : memo.Consistent) : (first second : Plan) → {group other : GroupId} →
    memo.IsPlan kind group first → memo.IsPlan kind other second → first.Alike second →
      group = other ∧ first = second
  | .node _ _ _ children, .node _ _ _ others, group, other,
      ⟨home_eq, id_mem, expression, stored, same, plans⟩,
      ⟨other_home, other_mem, twin, twin_stored, twin_same, twin_plans⟩, ⟨operators, alike⟩ => by
    rcases allEq_of_alike consistent children others plans twin_plans alike with
      ⟨children_eq, rfl⟩
    rw [← same, ← twin_same] at operators
    rcases consistent.shape_unique id_mem other_mem stored twin_stored children_eq operators with
      ⟨rfl, rfl, rfl⟩
    subst home_eq other_home same twin_same
    exact ⟨rfl, rfl⟩

theorem allEq_of_alike (consistent : memo.Consistent) : (firsts seconds : List Plan) →
    {groups others : List GroupId} → memo.ArePlans kind groups firsts →
      memo.ArePlans kind others seconds → Plan.AllAlike firsts seconds →
        groups = others ∧ firsts = seconds
  | [], [], [], [], _, _, _ => ⟨rfl, rfl⟩
  | first :: firsts, second :: seconds, _ :: _, _ :: _, ⟨first_plan, first_rest⟩,
      ⟨second_plan, second_rest⟩, ⟨alike, rest_alike⟩ => by
    rcases eq_of_alike consistent first second first_plan second_plan alike with ⟨rfl, rfl⟩
    rcases allEq_of_alike consistent firsts seconds first_rest second_rest rest_alike with
      ⟨rfl, rfl⟩
    exact ⟨rfl, rfl⟩

end

end Memo

namespace PlanSpace

/--
Below the count of a plan space, saturated or not, two ranks give plans that differ in their
operators, whatever has been asked of the plan space before.
-/
theorem plans_distinct {memo : Memo} (arises : memo.Arises) {root : GroupId} {kind : PlanKind}
    {space : PlanSpace} (built : build memo root kind = .ok (.ok space)) {count : Nat}
    (counted : space.treeCount.2 = .ok count) {later other : PlanSpace}
    (asked : space.Asked later) (other_asked : space.Asked other) {first second : Nat}
    (first_lt : first < count) (second_lt : second < count) (different : first ≠ second) :
    ∃ left right, later.Gives memo first left ∧ other.Gives memo second right ∧
      ¬ left.Alike right := by
  have consistent := arises.consistent
  have represents := represents_of_build consistent built
  rcases represents.gives_of_lt counted asked first_lt with ⟨left, left_plan, left_gives, left_rank⟩
  rcases represents.gives_of_lt counted other_asked second_lt with
    ⟨right, right_plan, right_gives, right_rank⟩
  refine ⟨left, right, left_gives, right_gives, ?_⟩
  intro alike
  obtain rfl := (Memo.eq_of_alike consistent left right left_plan right_plan alike).2
  exact different (left_rank.symm.trans right_rank)

/-- The two plans of a join of two tables differ in their operators. -/
theorem plans_distinct_pair : ∃ space, build pair 2 .logical = .ok (.ok space) ∧
    ∃ left right, PlanSpace.Gives space pair 0 left ∧ PlanSpace.Gives space pair 1 right ∧
      ¬ left.Alike right := by
  rcases count_pair with ⟨space, built, counted⟩
  exact ⟨space, built, plans_distinct arises_pair built counted .none .none (by decide) (by decide)
    (by decide)⟩

end PlanSpace

end Cascades
