import Cascades.Proofs.Search.Cycles
import Cascades.Rule.Template

/-!
# What a successful search covers

A search that implements drives exactly the groups that its root reaches through logical expressions,
whatever the rules are. The children of physical expressions are never followed. So everything that is
reachable is explored and implemented if the rules give no physical expressions over new inputs, and
a rule that does so leaves reachable groups behind that are neither.
-/

namespace Cascades

open Relation

namespace Memo

variable {rules : Rulebook} {catalog : Catalog} {config : SearchConfig} {memo : Memo}
  {root : GroupId} {report : RunReport}

/-- In a covered memo, everything below a group that has been driven to the goal has been as well. -/
theorem Covered.reachableGroups {top : Goal} (covered : memo.Covered) (layered : Layered top memo)
    (reached : memo.Reached root top) :
    ∃ below, memo.reachableGroups root = .ok below ∧ ∀ id ∈ below, memo.Reached id top :=
  reachableGroups_of_step reached
    (fun id_reached next_mem => layered.below id_reached (covered.of_successors next_mem)) Reached.lt

/--
A search that implements and succeeds on a memo of logical expressions without flags has explored and
implemented the groups that the root reaches through logical expressions, and no others. If no active
rule gives physical expressions over other inputs than those of the matched expression, then these are
all the groups that can be reached from the root.
-/
theorem search_covers (built : memo.Built) (unreached : ∀ id goal, ¬ memo.Reached id goal)
    (logical : ∀ expression ∈ memo.expressions, expression.operator.isLogical = true)
    (implement : config.implement = true) (runs : memo.Runs rules catalog config root report)
    (succeeded : report.outcome = .ok ()) :
    (∀ id, (report.memo.Reached id .explore ∧ report.memo.Reached id .implement) ↔
        ReflTransGen (report.memo.LeadsTo .logical) root id) ∧
      ((∀ goal, ∀ id ∈ (context rules catalog config).phase goal, ∀ rule,
          rules.lookup id = .ok rule → rule.Covers) →
        ∃ below, report.memo.reachableGroups root = .ok below ∧ ∀ id ∈ below,
          report.memo.Reached id .explore ∧ report.memo.Reached id .implement) := by
  have goal_eq : config.goal = .implement := by simp [SearchConfig.goal, implement]
  have started : Layered config.goal memo := .of_unreached built unreached
  have covered : memo.Covered := .of_logical built.consistent
    fun stored => logical _ (Array.mem_of_getElem? stored)
  refine ⟨fun id => ⟨?_, ?_⟩, ?_⟩
  · exact fun reached => (runs.traced layered_discipline started unreached).1 reached.2
  · intro path
    have keeps := search_keeps layered_discipline started runs
    have implemented := keeps.kept.reached_below (keeps.reached succeeded) path
    rw [goal_eq] at implemented
    exact ⟨keeps.kept.explored implemented, implemented⟩
  · intro covers
    have keeps := search_keeps (covered_discipline fun id_mem => covers _ _ id_mem _)
      ⟨started, covered⟩ runs
    rcases keeps.kept.2.reachableGroups keeps.kept.1 (keeps.reached succeeded) with
      ⟨below, below_eq, reached⟩
    rw [goal_eq] at reached
    exact ⟨below, below_eq, fun id id_mem =>
      ⟨keeps.kept.1.explored (reached id id_mem), reached id id_mem⟩⟩

/-- The standard rules leave nothing uncovered below the join of two tables. -/
theorem search_covers_pair : ∃ report below,
    PlanSpace.pairJoined.search .standard .empty ⟨100, none, true⟩ 2 false = .ok report ∧
      report.memo.reachableGroups 2 = .ok below ∧ ∀ id ∈ below,
        report.memo.Reached id .explore ∧ report.memo.Reached id .implement := by
  rcases search_pairJoined with ⟨report, report_eq, succeeded, -⟩
  rcases (search_covers built_pairJoined untouched_pairJoined.unreached (by decide) rfl
     (.inl ⟨false, report_eq⟩) succeeded).2
    (fun _ _ id_mem _ => Rules.covers_standard id_mem) with ⟨below, below_eq, reached⟩
  exact ⟨report, below, report_eq, below_eq, reached⟩

/-- Joins sorted inputs by merging them. The sorts are logical expressions in groups of their own. -/
def sortMergeJoin : RuleTemplate :=
  let column (table : String) : Scalar := .column (.qualified table "x")
  let sorted (table : String) (position : Nat) : SubplanTemplate :=
    .fresh (.given (.logical (.sort [⟨column table, true, false⟩]))) [.group (.input position)]
  { name := "SortMergeJoin", kind := .implementation, pattern := .join, promise := .medium
    incompatible := [], cancels := false, failure := none
    results := [.nested (.given (.physical (.mergeJoin .inner (.equality "a" "x" "b" "x"))))
      [sorted "a" 0, sorted "b" 1]] }

/-- The rulebook of this rule alone. -/
def sortMergeRules : Rulebook :=
  (Rulebook.empty.register sortMergeJoin.rule none).1

/-- The report of a search that sorts both sides of the joined pair. -/
def sortsSearched :=
  tested (PlanSpace.pairJoined.search sortMergeRules .empty ⟨100, none, true⟩ 2 false).toOption
    (fun report => decide (report.outcome = .ok () ∧
      report.memo.reachableGroups 2 = .ok [2, 0, 1, 3, 4] ∧
        ¬ report.memo.Reached 3 .explore ∧ ¬ report.memo.Reached 3 .implement))
    (by decide +kernel)

/-- The groups of the sorts are reachable, and the search that has made them leaves them as they are. -/
theorem sorts_uncovered : ∃ report below, PlanSpace.pairJoined.Untouched ∧
    PlanSpace.pairJoined.search sortMergeRules .empty ⟨100, none, true⟩ 2 false = .ok report ∧
      report.outcome = .ok () ∧ report.memo.reachableGroups 2 = .ok below ∧ ∃ id ∈ below,
        ¬ report.memo.Reached id .explore ∧ ¬ report.memo.Reached id .implement := by
  rcases sortsSearched with ⟨report, report_eq, facts⟩
  rcases of_decide_eq_true facts with ⟨succeeded, below_eq, unexplored, unimplemented⟩
  exact ⟨report, _, untouched_pairJoined, eq_ok_of_toOption report_eq, succeeded, below_eq, 3,
    by decide, unexplored, unimplemented⟩

end Memo

end Cascades
