import Cascades.Traversal
import Mathlib.Logic.Relation

/-!
# What a traversal meets

A breadth-first traversal meets exactly the nodes that can be reached from its start. The edges that
leave unseen nodes, with the pending nodes, bound the steps that are left, so the steps it is given
suffice and the order it finds depends on nothing but the successors of the nodes it meets.
-/

namespace Cascades

namespace Traversal

variable {successors others : Nat → List Nat} {bound start : Nat}

/-- A node can be reached from another one. -/
def Reaches (successors : Nat → List Nat) : Nat → Nat → Prop :=
  Relation.ReflTransGen fun node next => next ∈ successors node

/-- The number of edges that leave nodes below a bound that have not been seen. -/
def unseenEdges (bound : Nat) (successors : Nat → List Nat) (seen : List Nat) : Nat :=
  (List.range bound).foldr (fun node count =>
    (if seen.contains node then 0 else (successors node).length) + count) 0

theorem edgeCount_eq (bound : Nat) (successors : Nat → List Nat) :
    edgeCount bound successors = unseenEdges bound successors [] := by
  simp [edgeCount, unseenEdges]

/-- Serving an unseen node uses up the edges that leave it. -/
theorem unseenEdges_cons (bounded : ∀ node, bound ≤ node → successors node = [])
    {seen : List Nat} {node : Nat} (unseen : node ∉ seen) :
    unseenEdges bound successors (node :: seen) + (successors node).length =
      unseenEdges bound successors seen := by
  have split (nodes : List Nat) (nodup : nodes.Nodup) :
      nodes.foldr (fun other count =>
          (if other ∈ node :: seen then 0 else (successors other).length) + count) 0 +
        (if node ∈ nodes then (successors node).length else 0) =
      nodes.foldr (fun other count =>
        (if other ∈ seen then 0 else (successors other).length) + count) 0 := by
    induction nodes with
    | nil => simp
    | cons first nodes ih =>
        rw [List.nodup_cons] at nodup
        have rest := ih nodup.2
        rw [List.foldr_cons, List.foldr_cons, ← rest]
        by_cases same : first = node
        · subst same
          simp [unseen, nodup.1]
          omega
        · simp only [List.mem_cons, same, Ne.symm same, false_or]
          omega
  have whole := split (List.range bound) List.nodup_range
  simp only [unseenEdges, List.contains_iff_mem]
  rw [← whole]
  by_cases below : node < bound
  · simp [below]
  · simp [below, bounded node (Nat.le_of_not_lt below)]

theorem enough_steps (bound : Nat) (successors : Nat → List Nat) (start : Nat) :
    [start].length + unseenEdges bound successors [] ≤ edgeCount bound successors + 1 := by
  have edges_eq := edgeCount_eq bound successors
  rw [List.length_singleton]
  omega

/-- Steps that suffice are never used up. -/
theorem visit_add (bounded : ∀ node, bound ≤ node → successors node = []) {steps : Nat}
    {seen pending : List Nat} (extra : Nat)
    (enough : pending.length + unseenEdges bound successors seen ≤ steps) :
    visit successors (steps + extra) seen pending = visit successors steps seen pending := by
  induction steps generalizing seen pending with
  | zero =>
      obtain rfl : pending = [] := by
        rw [← List.length_eq_zero_iff]
        omega
      cases extra <;> rfl
  | succ steps ih =>
      rw [Nat.add_right_comm]
      cases pending with
      | nil => rfl
      | cons node pending =>
          rw [List.length_cons] at enough
          rw [visit, visit]
          split
          · exact ih (by omega)
          · rename_i unseen
            have fewer := unseenEdges_cons bounded (by simpa using unseen)
            rw [ih]
            rw [List.length_append]
            omega

/-- Only the successors of nodes that may be met matter. -/
theorem visit_congr {met : Nat → Prop} (agree : ∀ node, met node → others node = successors node)
    (closed : ∀ node, met node → ∀ next ∈ successors node, met next) {steps : Nat}
    {seen pending : List Nat} (pending_met : ∀ node ∈ pending, met node) :
    visit others steps seen pending = visit successors steps seen pending := by
  induction steps generalizing seen pending with
  | zero => rfl
  | succ steps ih =>
      cases pending with
      | nil => rfl
      | cons node pending =>
          have node_met := pending_met node List.mem_cons_self
          have rest_met := fun other other_mem =>
            pending_met other (List.mem_cons_of_mem node other_mem)
          rw [visit, visit]
          split
          · exact ih rest_met
          · rw [agree node node_met, ih]
            intro other other_mem
            rcases List.mem_append.mp other_mem with old | new
            · exact rest_met other old
            · exact closed node node_met other new

theorem visit_sound {met : Nat → Prop}
    (closed : ∀ node, met node → ∀ next ∈ successors node, met next) {steps : Nat}
    {seen pending : List Nat} (pending_met : ∀ node ∈ pending, met node) :
    ∀ node ∈ visit successors steps seen pending, met node := by
  induction steps generalizing seen pending with
  | zero => simp [visit]
  | succ steps ih =>
      cases pending with
      | nil => simp [visit]
      | cons first pending =>
          have first_met := pending_met first List.mem_cons_self
          have rest_met := fun other other_mem =>
            pending_met other (List.mem_cons_of_mem first other_mem)
          rw [visit]
          split
          · exact ih rest_met
          · intro node node_mem
            rcases List.mem_cons.mp node_mem with rfl | node_mem
            · exact first_met
            · refine ih ?_ node node_mem
              intro other other_mem
              rcases List.mem_append.mp other_mem with old | new
              · exact rest_met other old
              · exact closed first first_met other new

/-- With enough steps the seen nodes and those met are closed under successors. -/
theorem visit_complete (bounded : ∀ node, bound ≤ node → successors node = []) {steps : Nat}
    {seen pending : List Nat}
    (enough : pending.length + unseenEdges bound successors seen ≤ steps)
    (frontier : ∀ node ∈ seen, ∀ next ∈ successors node, next ∈ seen ∨ next ∈ pending) :
    (∀ node ∈ pending, node ∈ seen ∨ node ∈ visit successors steps seen pending) ∧
      ∀ node, node ∈ seen ∨ node ∈ visit successors steps seen pending →
        ∀ next ∈ successors node, next ∈ seen ∨ next ∈ visit successors steps seen pending := by
  induction steps generalizing seen pending with
  | zero =>
      obtain rfl : pending = [] := by
        rw [← List.length_eq_zero_iff]
        omega
      simpa [visit] using frontier
  | succ steps ih =>
      cases pending with
      | nil => simpa [visit] using frontier
      | cons first pending =>
          rw [List.length_cons] at enough
          rw [visit]
          split
          · rename_i firstSeen
            have first_mem : first ∈ seen := by simpa using firstSeen
            have rest_enough : pending.length + unseenEdges bound successors seen ≤ steps := by
              omega
            have rest := ih rest_enough (by
              intro node node_mem next next_mem
              rcases frontier node node_mem next next_mem with old | new
              · exact .inl old
              · rcases List.mem_cons.mp new with rfl | new
                · exact .inl first_mem
                · exact .inr new)
            refine ⟨?_, rest.2⟩
            intro node node_mem
            rcases List.mem_cons.mp node_mem with rfl | node_mem
            · exact .inl first_mem
            · exact rest.1 node node_mem
          · rename_i unseen
            have fewer := unseenEdges_cons bounded (by simpa using unseen)
            have rest_enough : (pending ++ successors first).length +
                unseenEdges bound successors (first :: seen) ≤ steps := by
              rw [List.length_append]
              omega
            have rest := ih rest_enough (by
              intro node node_mem next next_mem
              rcases List.mem_cons.mp node_mem with rfl | node_mem
              · exact .inr (List.mem_append_right _ next_mem)
              · rcases frontier node node_mem next next_mem with old | new
                · exact .inl (List.mem_cons_of_mem first old)
                · rcases List.mem_cons.mp new with rfl | new
                  · exact .inl List.mem_cons_self
                  · exact .inr (List.mem_append_left _ new))
            have reshape {node : Nat} : (node ∈ first :: seen ∨
                node ∈ visit successors steps (first :: seen) (pending ++ successors first)) ↔
                (node ∈ seen ∨ node ∈ first ::
                  visit successors steps (first :: seen) (pending ++ successors first)) := by
              simp only [List.mem_cons, or_assoc, or_left_comm]
            refine ⟨?_, ?_⟩
            · intro node node_mem
              rcases List.mem_cons.mp node_mem with rfl | node_mem
              · exact .inr List.mem_cons_self
              · exact reshape.mp (rest.1 node (List.mem_append_left _ node_mem))
            · intro node node_mem next next_mem
              exact reshape.mp (rest.2 node (reshape.mpr node_mem) next next_mem)

/-- A traversal meets exactly the nodes that its start reaches. -/
theorem mem_breadthFirst (bounded : ∀ node, bound ≤ node → successors node = []) {node : Nat} :
    node ∈ breadthFirst bound successors start ↔ Reaches successors start node := by
  rw [breadthFirst]
  constructor
  · refine visit_sound (fun node reached next next_mem => reached.tail next_mem) ?_ node
    intro node node_mem
    rw [List.mem_singleton.mp node_mem]
    exact .refl
  · intro reached
    rcases visit_complete bounded (enough_steps bound successors start) (by simp) with
      ⟨pending_met, closed⟩
    induction reached with
    | refl => simpa using pending_met start List.mem_cons_self
    | tail _ next_mem ih => simpa using closed _ (.inr ih) _ next_mem

/-- The order depends on nothing but the successors of the nodes that can be met. -/
theorem breadthFirst_congr {larger : Nat}
    (bounded : ∀ node, bound ≤ node → successors node = [])
    (others_bounded : ∀ node, larger ≤ node → others node = [])
    (agree : ∀ node, Reaches successors start node → others node = successors node) :
    breadthFirst larger others start = breadthFirst bound successors start := by
  rw [breadthFirst, breadthFirst,
    ← visit_add others_bounded (edgeCount bound successors + 1) (enough_steps larger others start),
    ← visit_add bounded (edgeCount larger others + 1) (enough_steps bound successors start),
    Nat.add_comm (edgeCount bound successors + 1)]
  refine visit_congr agree (fun node reached next next_mem => reached.tail next_mem) ?_
  intro node node_mem
  rw [List.mem_singleton.mp node_mem]
  exact .refl

end Traversal

end Cascades
