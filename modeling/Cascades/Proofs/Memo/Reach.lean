import Cascades.Proofs.PlanSpace.Loading
import Cascades.Proofs.Search.Fixpoint
import Cascades.Proofs.Traversal.Distances

/-!
# The groups below a group

The groups below a root are listed in the order of their distance from it, each of them once, however
the groups lead to each other. A group leads to the children of its logical and of its physical
expressions, and its distance is the least number of such steps.
-/

namespace Cascades

open Relation Traversal

namespace Memo

variable {memo : Memo} {root : GroupId}

/-- Some expression of a group, a logical or a physical one, has another group as an input. -/
def Above (memo : Memo) (id next : GroupId) : Prop :=
  memo.LeadsTo .logical id next ∨ memo.LeadsTo .physical id next

theorem mem_successors_iff {id next : GroupId} :
    next ∈ memo.successors id ↔ memo.Above id next := by
  have childrenOf_iff (ids : List ExprId) :
      next ∈ memo.childrenOf ids ↔ ∃ member ∈ ids, next ∈ memo.inputs member := by
    simp only [childrenOf, List.mem_flatMap]
    rfl
  cases found : memo.group? id with
  | none => simp [successors, Above, LeadsTo, PlanKind.members, found]
  | some group =>
      rw [successors, found, Above, LeadsTo, LeadsTo, PlanKind.members_eq found,
        PlanKind.members_eq found]
      dsimp only
      rw [childrenOf_iff]
      simp only [Group.expressions, List.mem_append, or_and_right, exists_or]
      rfl

theorem edge_successors (memo : Memo) : Edge memo.successors = memo.Above := by
  funext id next
  exact propext mem_successors_iff

theorem reaches_successors (memo : Memo) :
    Reaches memo.successors = ReflTransGen memo.Above := by
  rw [← edge_successors]
  rfl

/-- Groups of a closed memo lead to groups that exist. -/
theorem Closed.above_lt (closed : memo.Closed) {id next : GroupId} (above : memo.Above id next) :
    next < memo.groups.size := by
  rcases mem_successors (mem_successors_iff.mpr above) with
    ⟨group, member, expression, -, -, stored, next_mem⟩
  exact closed stored next next_mem

/-- Listing the groups below an existing one of a closed memo follows no dangling reference. -/
theorem Closed.reachableGroups_eq (closed : memo.Closed) (exists_ : root < memo.groups.size) :
    memo.reachableGroups root = .ok (breadthFirst memo.groups.size memo.successors root) := by
  rcases @reachableGroups_of_step memo (· < memo.groups.size) root exists_
    (fun _ next_mem => closed.above_lt (mem_successors_iff.mp next_mem)) id with ⟨order, order_eq, -⟩
  rw [order_eq]
  rw [Memo.reachableGroups] at order_eq
  split at order_eq
  · cases order_eq
  · exact order_eq.symm

/--
If all children of expressions exist, the groups below a group that exists are listed in the order of
a breadth-first search: the search comes to an end without a bound on its steps, the list starts with
the root, it holds every group that can be reached and no other, each of them once, and no group
comes before one to which a shorter path leads.
-/
theorem reachableGroups_exact (closed : memo.Closed) (exists_ : root < memo.groups.size) :
    ∃ order, memo.reachableGroups root = .ok order ∧ Visits memo.successors [] [root] order ∧
      order.head? = some root ∧ order.Nodup ∧
        (∀ id, id ∈ order ↔ ReflTransGen memo.Above root id) ∧
          (∀ id ∈ order, Path memo.Above root (distance memo.Above root id) id) ∧
            order.Pairwise fun first second =>
              distance memo.Above root first ≤ distance memo.Above root second := by
  have bounded : ∀ id, memo.groups.size ≤ id → memo.successors id = [] :=
    fun _ missing => successors_eq_nil missing
  have visits : Visits memo.successors [] [root] (breadthFirst memo.groups.size memo.successors root) :=
    visits_breadthFirst bounded
  have mem_iff (id : GroupId) : id ∈ breadthFirst memo.groups.size memo.successors root ↔
      ReflTransGen memo.Above root id := by
    rw [mem_breadthFirst bounded, reaches_successors]
  refine ⟨_, closed.reachableGroups_eq exists_, visits, ?_, visits.fresh.1, mem_iff, ?_, ?_⟩
  · rcases visits.head_eq List.not_mem_nil with ⟨rest, order_eq⟩
    rw [order_eq, List.head?_cons]
  · intro id id_mem
    exact path_distance ((mem_iff id).mp id_mem)
  · have sorted := (visits.sorted Frontier.initial (List.append_nil [root])).2
    rwa [edge_successors] at sorted

/--
A scan and a filter over it, which is filtered in turn in the group of the scan. The group of the first
filter also holds a join of the scan with another one.
-/
def circling : Memo :=
  let scanned (memo : Memo) (table : String) : Memo :=
    (memo.add (.logical (.scan ⟨"public", table⟩ [] none)) [] none).1
  let added (memo : Memo) (group : GroupId) (operator : Operator) (children : List GroupId) : Memo :=
    match memo.addTo group operator children none with
    | .ok (larger, _) => larger
    | .error _ => memo
  let filtered := ((scanned (scanned empty "a") "b").add (.logical (.filter .truth)) [0] none).1
  added (added filtered 0 (.logical (.filter .truth)) [2])
    2 (.physical (.nestedLoopJoin .inner .truth)) [0, 1]

/-- Two groups lead to each other here, and only a physical expression leads to the third one. -/
theorem reachableGroups_exact_circling : circling.Closed ∧ 0 < circling.groups.size ∧
    circling.reachableGroups 0 = .ok [0, 2, 1] ∧ ReflTransGen circling.Above 0 1 ∧
      distance circling.Above 0 2 ≤ distance circling.Above 0 1 := by
  have children_exist : ∀ expression ∈ circling.expressions, ∀ child ∈ expression.children,
      child < circling.groups.size := by decide +kernel
  have closed : circling.Closed := fun stored => children_exist _ (Array.mem_of_getElem? stored)
  have exists_ : 0 < circling.groups.size := by decide +kernel
  rcases reachableGroups_exact closed exists_ with ⟨order, order_eq, -, -, -, mem_iff, -, sorted⟩
  have listed : circling.reachableGroups 0 = .ok [0, 2, 1] :=
    eq_ok_of_toOption (by decide +kernel)
  cases order_eq.symm.trans listed
  refine ⟨closed, exists_, listed, (mem_iff 1).mp (by simp), ?_⟩
  simp only [List.pairwise_cons] at sorted
  exact sorted.2.1 1 List.mem_cons_self

end Memo

end Cascades
