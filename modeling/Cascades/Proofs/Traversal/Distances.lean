import Cascades.Proofs.Traversal
import Mathlib.Order.Lattice.Nat

/-!
# The order of a breadth-first traversal

A traversal that serves its pending nodes until none is left comes to an end, and meets no node
twice. The pending nodes are always some at one distance from the start, followed by some at the next
one, and all nodes that are nearer have been seen. So the nodes are met in the order of their
distance.
-/

namespace Cascades

namespace Traversal

variable {successors : Nat → List Nat} {bound start : Nat}

/-! ## Traversals without a bound on their steps -/

/-- The nodes that are met, in order, when pending nodes are served until none is left. -/
inductive Visits (successors : Nat → List Nat) : (seen pending order : List Nat) → Prop
  | done (seen : List Nat) : Visits successors seen [] []
  | skip {seen pending order : List Nat} {node : Nat} : node ∈ seen →
      Visits successors seen pending order → Visits successors seen (node :: pending) order
  | meet {seen pending order : List Nat} {node : Nat} : node ∉ seen →
      Visits successors (node :: seen) (pending ++ successors node) order →
        Visits successors seen (node :: pending) (node :: order)

/-- A traversal that is given enough steps serves all pending nodes. -/
theorem visits_of_enough (bounded : ∀ node, bound ≤ node → successors node = []) {steps : Nat}
    {seen pending : List Nat}
    (enough : pending.length + unseenEdges bound successors seen ≤ steps) :
    Visits successors seen pending (visit successors steps seen pending) := by
  induction steps generalizing seen pending with
  | zero =>
      obtain rfl : pending = [] := by
        rw [← List.length_eq_zero_iff]
        omega
      exact .done seen
  | succ steps ih =>
      cases pending with
      | nil => exact .done seen
      | cons node pending =>
          rw [List.length_cons] at enough
          rw [visit]
          split
          · rename_i isSeen
            apply Visits.skip
            · simpa using isSeen
            · apply ih
              omega
          · rename_i unseen
            have node_unseen : node ∉ seen := by simpa using unseen
            have fewer := unseenEdges_cons bounded node_unseen
            apply Visits.meet node_unseen
            apply ih
            rw [List.length_append]
            omega

/-- The bound on the steps of a breadth-first traversal never cuts it off. -/
theorem visits_breadthFirst (bounded : ∀ node, bound ≤ node → successors node = []) :
    Visits successors [] [start] (breadthFirst bound successors start) :=
  visits_of_enough bounded (enough_steps bound successors start)

namespace Visits

variable {seen pending order : List Nat}

/-- No node is met twice, and none that has been seen before. -/
theorem fresh (visits : Visits successors seen pending order) :
    order.Nodup ∧ ∀ node ∈ order, node ∉ seen := by
  induction visits with
  | done seen => simp
  | skip _ _ ih => exact ih
  | meet unseen _ ih =>
      rcases ih with ⟨nodup, others_unseen⟩
      constructor
      · apply List.nodup_cons.mpr
        refine ⟨fun met => ?_, nodup⟩
        exact others_unseen _ met List.mem_cons_self
      · intro other other_mem
        rcases List.mem_cons.mp other_mem with rfl | met
        · exact unseen
        · intro isSeen
          exact others_unseen other met (List.mem_cons_of_mem _ isSeen)

/-- The first pending node is met first, unless it has been seen before. -/
theorem head_eq {node : Nat} (visits : Visits successors seen (node :: pending) order)
    (unseen : node ∉ seen) : ∃ rest, order = node :: rest := by
  cases visits with
  | skip isSeen _ => exact absurd isSeen unseen
  | meet _ _ => exact ⟨_, rfl⟩

end Visits

/-! ## Distances -/

/-- One node is a successor of another one. -/
def Edge (successors : Nat → List Nat) (node next : Nat) : Prop :=
  next ∈ successors node

/-- A node can be reached from the start by some number of edges. -/
inductive Path (edge : Nat → Nat → Prop) (start : Nat) : (length node : Nat) → Prop
  | start : Path edge start 0 start
  | step {length node next : Nat} : Path edge start length node → edge node next →
      Path edge start (length + 1) next

/-- The least number of edges by which a node can be reached from the start. -/
noncomputable def distance (edge : Nat → Nat → Prop) (start node : Nat) : Nat :=
  sInf {length | Path edge start length node}

section Distance

variable {edge : Nat → Nat → Prop} {length node : Nat}

theorem Path.distance_le (path : Path edge start length node) : distance edge start node ≤ length :=
  Nat.sInf_le path

/-- Some path is as long as the distance, if there is any path. -/
theorem Path.shortest (path : Path edge start length node) :
    Path edge start (distance edge start node) node :=
  Nat.sInf_mem (s := {length | Path edge start length node}) ⟨length, path⟩

/-- The distance of a node that can be reached is the length of a path. -/
theorem path_distance (reached : Relation.ReflTransGen edge start node) :
    Path edge start (distance edge start node) node := by
  have exists_path : ∃ length, Path edge start length node := by
    induction reached with
    | refl => exact ⟨0, .start⟩
    | tail _ isEdge ih =>
        rcases ih with ⟨length, path⟩
        exact ⟨length + 1, .step path isEdge⟩
  rcases exists_path with ⟨length, path⟩
  exact path.shortest

end Distance

/--
The pending nodes of a traversal are near ones, at some distance from the start, and then far ones,
which are one edge further. All nodes that are nearer have been seen.
-/
structure Frontier (successors : Nat → List Nat) (start length : Nat) (seen near far : List Nat) :
    Prop where
  near_path : ∀ node ∈ near, Path (Edge successors) start length node
  far_path : ∀ node ∈ far, Path (Edge successors) start (length + 1) node
  nearer : ∀ {shorter node}, Path (Edge successors) start shorter node →
    shorter < length → node ∈ seen
  level : ∀ {node}, Path (Edge successors) start length node →
    node ∈ seen ∨ node ∈ near
  closed : ∀ node ∈ seen, ∀ next ∈ successors node, next ∈ seen ∨ next ∈ near ∨ next ∈ far

namespace Frontier

variable {length node : Nat} {seen near far : List Nat}

theorem initial : Frontier successors start 0 [] [start] [] where
  near_path := by
    intro node node_mem
    rw [List.mem_singleton.mp node_mem]
    exact .start
  far_path := by simp
  nearer := by
    intro shorter node _ shorter_lt
    exact absurd shorter_lt (Nat.not_lt_zero shorter)
  level := by
    intro node path
    cases path with
    | start => simp
  closed := by simp

/-- When no near nodes are left, the far ones are the near ones at the next distance. -/
theorem turned (frontier : Frontier successors start length seen [] far) :
    Frontier successors start (length + 1) seen far [] where
  near_path := frontier.far_path
  far_path := by simp
  nearer := by
    intro shorter node path shorter_lt
    rcases Nat.lt_succ_iff_lt_or_eq.mp shorter_lt with before | rfl
    · exact frontier.nearer path before
    · simpa using frontier.level path
  level := by
    intro node path
    cases path with
    | @step _ previous _ path edge =>
        have previous_seen : previous ∈ seen := by simpa using frontier.level path
        simpa using frontier.closed previous previous_seen node edge
  closed := by
    intro node node_seen next next_mem
    simpa using frontier.closed node node_seen next next_mem

/-- The first pending node is a near one, perhaps at the next distance. -/
theorem head {pending : List Nat} (frontier : Frontier successors start length seen near far)
    (pending_eq : near ++ far = node :: pending) :
    ∃ later others beyond, length ≤ later ∧ pending = others ++ beyond ∧
      Frontier successors start later seen (node :: others) beyond := by
  cases near with
  | nil =>
      rw [List.nil_append] at pending_eq
      subst pending_eq
      exact ⟨length + 1, pending, [], Nat.le_succ length, by simp, frontier.turned⟩
  | cons first others =>
      rw [List.cons_append, List.cons.injEq] at pending_eq
      rcases pending_eq with ⟨rfl, rfl⟩
      exact ⟨length, others, far, Nat.le_refl length, rfl, frontier⟩

theorem skip (frontier : Frontier successors start length seen (node :: near) far)
    (isSeen : node ∈ seen) : Frontier successors start length seen near far where
  near_path := fun other other_mem => frontier.near_path other (List.mem_cons_of_mem node other_mem)
  far_path := frontier.far_path
  nearer := frontier.nearer
  level := by
    intro other path
    rcases frontier.level path with old | pending
    · exact .inl old
    · rcases List.mem_cons.mp pending with rfl | isNear
      · exact .inl isSeen
      · exact .inr isNear
  closed := by
    intro other other_seen next next_mem
    rcases frontier.closed other other_seen next next_mem with old | pending | isFar
    · exact .inl old
    · rcases List.mem_cons.mp pending with rfl | isNear
      · exact .inl isSeen
      · exact .inr (.inl isNear)
    · exact .inr (.inr isFar)

/-- The successors of a near node are one edge further than the node. -/
theorem meet (frontier : Frontier successors start length seen (node :: near) far) :
    Frontier successors start length (node :: seen) near (far ++ successors node) where
  near_path := fun other other_mem => frontier.near_path other (List.mem_cons_of_mem node other_mem)
  far_path := by
    intro other other_mem
    rcases List.mem_append.mp other_mem with old | isNew
    · exact frontier.far_path other old
    · exact .step (frontier.near_path node List.mem_cons_self) isNew
  nearer := fun path shorter_lt => List.mem_cons_of_mem node (frontier.nearer path shorter_lt)
  level := by
    intro other path
    have served := frontier.level path
    simp only [List.mem_cons] at served ⊢
    tauto
  closed := by
    intro other other_mem next next_mem
    rcases List.mem_cons.mp other_mem with rfl | other_seen
    · simp [next_mem]
    · have served := frontier.closed other other_seen next next_mem
      simp only [List.mem_cons, List.mem_append] at served ⊢
      tauto

/-- A near node that has not been seen is as far away as its path is long. -/
theorem distance_eq (frontier : Frontier successors start length seen (node :: near) far)
    (unseen : node ∉ seen) :
    distance (Edge successors) start node = length := by
  have path := frontier.near_path node List.mem_cons_self
  apply Nat.le_antisymm path.distance_le
  apply Nat.le_of_not_lt
  intro nearer
  exact unseen (frontier.nearer path.shortest nearer)

end Frontier

/-- The nodes are met in the order of their distance from the start. -/
theorem Visits.sorted {seen pending order near far : List Nat} {length : Nat}
    (visits : Visits successors seen pending order)
    (frontier : Frontier successors start length seen near far) (pending_eq : near ++ far = pending) :
    (∀ node ∈ order, length ≤ distance (Edge successors) start node) ∧
      order.Pairwise fun first second =>
        distance (Edge successors) start first ≤
          distance (Edge successors) start second := by
  induction visits generalizing length near far with
  | done seen => simp
  | skip isSeen _ ih =>
      rcases frontier.head pending_eq with ⟨later, others, beyond, length_le, rfl, frontier⟩
      rcases ih (frontier.skip isSeen) rfl with ⟨further, sorted⟩
      exact ⟨fun node met => Nat.le_trans length_le (further node met), sorted⟩
  | @meet seen pending order node unseen _ ih =>
      rcases frontier.head pending_eq with ⟨later, others, beyond, length_le, rfl, frontier⟩
      have node_distance := frontier.distance_eq unseen
      rcases ih frontier.meet (List.append_assoc _ _ _).symm with ⟨further, sorted⟩
      constructor
      · intro other other_mem
        rcases List.mem_cons.mp other_mem with rfl | met
        · exact node_distance ▸ length_le
        · exact Nat.le_trans length_le (further other met)
      · apply List.pairwise_cons.mpr
        refine ⟨fun other met => ?_, sorted⟩
        rw [node_distance]
        exact further other met

end Traversal

end Cascades
