import Mathlib.Data.List.Basic
import Cascades.Proofs.Memo.Logical
import Cascades.Proofs.Traversal
import Cascades.Rules.JoinOrder

/-!
# The tables below a group

The tables below a group are those scanned in the groups that it reaches through the inputs of
logical expressions. Below an explored group they never change.
-/

namespace Cascades

open Traversal (Reaches breadthFirst)

namespace Operator

/-- The table that a scan reads. -/
def scanned? : Operator → Option TableRef
  | .logical (.scan table _ _) => some table
  | .physical (.seqScan table _ _) => some table
  | _ => none

@[simp]
theorem scanned?_canonical (operator : Operator) : operator.canonical.scanned? = operator.scanned? := by
  cases operator with
  | logical operator => cases operator <;> rfl
  | physical operator => cases operator <;> rfl

end Operator

namespace Expression

/-- The inputs in which the tables below an expression are looked for. -/
def tableInputs (expression : Expression) : List GroupId :=
  match expression.operator with
  | .logical (.scan ..) => []
  | _ => expression.children

/-- The table that an expression scans. -/
def scanned? (expression : Expression) : Option TableRef :=
  match expression.operator with
  | .logical (.scan table _ _) => some table
  | _ => none

theorem scanned?_operator {expression : Expression} {table : TableRef}
    (scanned : expression.scanned? = some table) : expression.operator.scanned? = some table := by
  rw [scanned?] at scanned
  split at scanned
  · rename_i found
    rw [found]
    exact scanned
  · cases scanned

theorem mem_children_of_mem_tableInputs {expression : Expression} {input : GroupId}
    (input_mem : input ∈ expression.tableInputs) : input ∈ expression.children := by
  rw [tableInputs] at input_mem
  split at input_mem
  · cases input_mem
  · exact input_mem

end Expression

namespace Memo

/-- The names of the tables scanned in a group itself. -/
def tablesIn (memo : Memo) (id : GroupId) : List String :=
  ((memo.logicalIn id).filterMap Expression.scanned?).map TableRef.name

/-- The names of the tables scanned below an existing group. -/
def tablesBelow (memo : Memo) (id : GroupId) : List String :=
  (breadthFirst memo.groups.size memo.tableSuccessors id).flatMap memo.tablesIn

section Names

variable {memo : Memo}

theorem tableSuccessors_eq (id : GroupId) :
    memo.tableSuccessors id = (memo.logicalIn id).flatMap Expression.tableInputs := by
  rw [tableSuccessors, logicalIn]
  cases memo.group? id with
  | none => rfl
  | some group =>
      dsimp only
      induction group.logical with
      | nil => rfl
      | cons member rest ih =>
          rw [List.flatMap_cons, ih]
          cases stored : memo.expression? member with
          | none => rw [List.filterMap_cons_none stored]; rfl
          | some expression =>
              rw [List.filterMap_cons_some stored, List.flatMap_cons]
              congr 1
              rcases expression with ⟨id, group, operator, children, origin, applied⟩
              rcases operator with ⟨operator⟩ | ⟨operator⟩
              · cases operator <;> rfl
              · rfl

theorem scannedBy_eq (ids : List ExprId) :
    memo.scannedBy ids = (ids.filterMap memo.expression?).filterMap Expression.scanned? := by
  rw [scannedBy, List.filterMap_filterMap]
  congr 1
  funext id
  cases memo.expression? id with
  | none => rfl
  | some expression =>
      rcases expression with ⟨id, group, operator, children, origin, applied⟩
      rcases operator with ⟨operator⟩ | ⟨operator⟩
      · cases operator <;> rfl
      · rfl

theorem tableSuccessors_eq_nil {id : GroupId} (missing : memo.groups.size ≤ id) :
    memo.tableSuccessors id = [] := by
  rw [tableSuccessors_eq, logicalIn_eq_nil missing]
  rfl

theorem lt_of_mem_tableSuccessors (consistent : memo.Consistent) (closed : memo.Closed)
    {id input : GroupId} (input_mem : input ∈ memo.tableSuccessors id) :
    input < memo.groups.size := by
  rw [tableSuccessors_eq] at input_mem
  rcases List.mem_flatMap.mp input_mem with ⟨expression, expression_mem, input_mem⟩
  exact child_lt consistent closed expression_mem input
    (Expression.mem_children_of_mem_tableInputs input_mem)

theorem mapM_group {ids : List GroupId} (exist : ∀ id ∈ ids, id < memo.groups.size) :
    ∃ groups, ids.mapM memo.group = .ok groups ∧
      groups.flatMap (fun group => (memo.scannedBy group.logical).map TableRef.name) =
        ids.flatMap memo.tablesIn := by
  induction ids with
  | nil => exact ⟨[], rfl, rfl⟩
  | cons id rest ih =>
      rcases ih fun other other_mem => exist other (List.mem_cons_of_mem id other_mem) with
        ⟨groups, rest_eq, names_eq⟩
      rcases group?_of_lt (exist id List.mem_cons_self) with ⟨group, found⟩
      refine ⟨group :: groups, ?_, ?_⟩
      · rw [List.mapM_cons, rest_eq, Memo.group, found]
        rfl
      · rw [List.flatMap_cons, List.flatMap_cons, names_eq, tablesIn, logicalIn_eq found,
          scannedBy_eq]

/-- The tables below an existing group can be read. -/
theorem tableNames_eq (consistent : memo.Consistent) (closed : memo.Closed) {id : GroupId}
    (exists_ : id < memo.groups.size) : memo.tableNames id = .ok (memo.tablesBelow id) := by
  have exist : ∀ node ∈ breadthFirst memo.groups.size memo.tableSuccessors id,
      node < memo.groups.size := by
    refine Traversal.visit_sound ?_ (by simpa using exists_)
    exact fun node _ next next_mem => lt_of_mem_tableSuccessors consistent closed next_mem
  rcases mapM_group exist with ⟨groups, mapped, names_eq⟩
  rw [tableNames, mapped, tablesBelow, ← names_eq]
  rfl

theorem mem_tablesBelow {id : GroupId} {name : String} :
    name ∈ memo.tablesBelow id ↔
      ∃ below, Reaches memo.tableSuccessors id below ∧ name ∈ memo.tablesIn below := by
  simp only [tablesBelow, List.mem_flatMap,
    Traversal.mem_breadthFirst fun node => tableSuccessors_eq_nil]

end Names

section Frozen

variable {memo larger : Memo} (extension : memo.Extends larger) (consistent : memo.Consistent)
  (below : memo.ExploredBelow)
include below

theorem explored_of_reaches {id node : GroupId} (explored : memo.Reached id .explore)
    (reaches : Reaches memo.tableSuccessors id node) : memo.Reached node .explore := by
  induction reaches with
  | refl => exact explored
  | tail _ next_mem ih =>
      rw [tableSuccessors_eq] at next_mem
      rcases List.mem_flatMap.mp next_mem with ⟨expression, expression_mem, input_mem⟩
      exact below ih expression_mem _ (Expression.mem_children_of_mem_tableInputs input_mem)

include extension consistent in
/-- The tables below an explored group are settled. -/
theorem tablesBelow_frozen {id : GroupId} (explored : memo.Reached id .explore) :
    larger.tablesBelow id = memo.tablesBelow id := by
  have reached_frozen {node : GroupId} (reaches : Reaches memo.tableSuccessors id node) :
      memo.Frozen larger node :=
    extension.frozen consistent (explored_of_reaches below explored reaches)
  have order_eq : breadthFirst larger.groups.size larger.tableSuccessors id =
      breadthFirst memo.groups.size memo.tableSuccessors id := by
    refine Traversal.breadthFirst_congr (fun node => tableSuccessors_eq_nil)
      (fun node => tableSuccessors_eq_nil) ?_
    intro node reaches
    rw [tableSuccessors_eq, tableSuccessors_eq]
    exact (reached_frozen reaches).flatMap fun _ => rfl
  rw [tablesBelow, tablesBelow, order_eq]
  refine List.flatMap_congr ?_
  intro node node_mem
  have reaches := (Traversal.mem_breadthFirst fun node => tableSuccessors_eq_nil).mp node_mem
  rw [tablesIn, tablesIn, (reached_frozen reaches).filterMap fun _ => rfl]

end Frozen

end Memo

end Cascades
