import Cascades.Proofs.JoinGraph.LeftDeep
import Cascades.Proofs.JoinGraph.Mapped

/-!
# The memo of a join graph is mapped

However a graph of inner joins is connected, or not connected at all, planning it gives a mapped memo
whose root has all tables. A table that no edge connects with the tree before it is added by a cross
join, and then there is no link to carry.
-/

namespace Cascades

section Planning

variable {graph : JoinGraph} {tables : ScannedTables} {planned : PlannedGraph}
  {order : List GraphTable} {first : Nat} (chain : planned.IsChain graph order first)
include chain

/-- Every expression of a chain scans or joins the tables of its group. -/
theorem PlannedGraph.IsChain.sited (accepted : Accepted graph tables) {group : Nat}
    {expression : Expression} (stored : planned.memo.expression? group = some expression) :
    Sited graph.links graph.tables (chainLabel graph.tables order) group expression.operator
      expression.children := by
  rcases Nat.lt_or_ge group graph.tables.length with scan | join
  · have known := chain.scan (List.getElem?_eq_getElem scan)
    rw [stored] at known
    cases known
    refine .scan (List.getElem_mem scan) rfl ?_
    exact (chainLabel_scan (List.getElem?_eq_getElem scan)).trans (by simp [namesOf])
  · rcases chain.exists_step join (chain.discrete.expression?_lt stored) with
      ⟨step, table, rfl, found⟩
    rcases chain.join found with ⟨right, type, condition, right_eq, known, joins⟩
    rcases chain.label_inputs accepted found right_eq with ⟨label_eq, disjoint, equalities_eq⟩
    rw [stored] at known
    cases known
    refine .join rfl label_eq disjoint ?_
    rw [joins.condition_eq, equalities_eq]
    exact .of_crossing _ _ _

/-- The inputs of the expression of a group are groups before it. -/
theorem PlannedGraph.IsChain.inhabited {group : Nat} (bounded : group < planned.memo.groups.size) :
    ∃ expression, planned.memo.expression? group = some expression ∧
      ∀ child ∈ expression.children, (child : Nat) < group := by
  rcases Nat.lt_or_ge group graph.tables.length with scan | join
  · exact ⟨_, chain.scan (List.getElem?_eq_getElem scan), by simp⟩
  · rcases chain.exists_step join bounded with ⟨step, table, rfl, found⟩
    rcases chain.join found with ⟨right, type, condition, right_eq, stored, -⟩
    have right_lt := (List.getElem?_eq_some_iff.mp right_eq).1
    refine ⟨_, stored, ?_⟩
    simpa using ⟨leftOf_lt chain.first_lt join, Nat.lt_of_lt_of_le right_lt join⟩

end Planning

/-- An accepted graph of inner joins is planned as a mapped memo whose root has all tables. -/
theorem plan_mapped {graph : JoinGraph} {planned : PlannedGraph}
    (plan_eq : graph.plan = .ok planned) (names : (graph.tables.map GraphTable.name).Nodup)
    (inner : ∀ edge ∈ graph.edges, JoinType.parse edge.joinType = .ok .inner) :
    ∃ label, label planned.root = graph.names ∧ planned.root < planned.memo.groups.size ∧
      Mapped graph.links graph.tables label planned.memo ∧ planned.memo.Untouched := by
  rcases accepted_of_plan plan_eq names inner with ⟨tables, accepted⟩
  rcases exists_chain plan_eq with ⟨order, first, chain⟩
  have discrete := chain.discrete
  refine ⟨chainLabel graph.tables order, chain.label_root, ?_,
    ⟨discrete.built.consistent, discrete.closed, ?_, ?_⟩, discrete.untouched⟩
  · rw [chain.root_eq]
    exact leftOf_lt chain.first_lt chain.enough
  · intro expression stored
    have group_eq := (discrete.expressions stored).2.1
    rw [group_eq]
    exact chain.sited accepted stored
  · intro group bounded
    rcases chain.inhabited bounded with ⟨expression, stored, children_lt⟩
    rcases discrete.expressions stored with ⟨id_eq, group_eq, logical, -⟩
    exact ⟨expression, id_eq.symm ▸ stored, group_eq, logical, children_lt⟩

end Cascades
