import Cascades.Proofs.Search.Suspension
import Cascades.Proofs.Traversal
import Mathlib.Data.Fintype.EquivFin
import Mathlib.Order.WellFounded

/-!
# Who waits for whom

The live jobs and the jobs they wait for form a graph. Before a job is made to wait, the agenda looks
for a way back to it, so the graph stays without cycles. As it is finite, some live job waits for
nothing, and following the waiting jobs upwards always ends.
-/

namespace Cascades

open Relation

/-- No element is related to itself, directly or through others. -/
def Acyclic (relation : Nat → Nat → Prop) : Prop :=
  ∀ node, ¬ TransGen relation node node

namespace Acyclic

variable {relation larger : Nat → Nat → Prop}

theorem mono (acyclic : Acyclic relation)
    (smaller : ∀ {first second}, larger first second → relation first second) : Acyclic larger :=
  fun node cycle => acyclic node (cycle.lift id fun _ _ => smaller)

theorem swap (acyclic : Acyclic relation) : Acyclic (Function.swap relation) :=
  fun node cycle => acyclic node (transGen_swap.mp cycle)

/-- Edges from a node to nodes that do not reach it close no cycle. -/
theorem insert (acyclic : Acyclic relation) {node : Nat} {targets : List Nat}
    (free : ∀ target ∈ targets, ¬ ReflTransGen relation target node)
    (edges : ∀ {first second}, larger first second →
      relation first second ∨ (first = node ∧ second ∈ targets)) : Acyclic larger := by
  -- a path uses old edges only, or it leads through the node and leaves it by a last new edge
  have path {first second : Nat} (connected : TransGen larger first second) :
      TransGen relation first second ∨
        (ReflTransGen relation first node ∧ ∃ target ∈ targets, ReflTransGen relation target second) := by
    induction connected with
    | single edge =>
        rcases edges edge with old | ⟨rfl, target_mem⟩
        · exact .inl (.single old)
        · exact .inr ⟨.refl, _, target_mem, .refl⟩
    | tail _ edge ih =>
        rcases edges edge with old | ⟨rfl, target_mem⟩
        · rcases ih with before | ⟨reached, target, target_mem, onwards⟩
          · exact .inl (before.tail old)
          · exact .inr ⟨reached, target, target_mem, onwards.tail old⟩
        · rcases ih with before | ⟨reached, target, target_mem', back⟩
          · exact .inr ⟨before.to_reflTransGen, _, target_mem, .refl⟩
          · exact (free target target_mem' back).elim
  intro other cycle
  rcases path cycle with old | ⟨reached, target, target_mem, onwards⟩
  · exact acyclic other old
  · exact free target target_mem (onwards.trans reached)

/-- Among finitely many nodes, one is reached by none of the others. -/
theorem exists_source (acyclic : Acyclic relation) {among : Nat → Prop} {bound start : Nat}
    (bounded : ∀ {node}, among node → node < bound) (start_among : among start) :
    ∃ source, among source ∧ ∀ {node}, among node → ¬ TransGen relation node source := by
  let below (first second : Fin bound) : Prop := TransGen relation first second
  have : IsTrans (Fin bound) below := ⟨fun _ _ _ => TransGen.trans⟩
  have : Std.Irrefl below := ⟨fun node => acyclic node⟩
  rcases (Finite.wellFounded_of_trans_of_irrefl below).has_min {node | among node}
    ⟨⟨start, bounded start_among⟩, start_among⟩ with ⟨source, source_among, least⟩
  exact ⟨source, source_among, fun node_among => least ⟨_, bounded node_among⟩ node_among⟩

end Acyclic

namespace Agenda

/-- A job waits for another one directly. -/
def Awaits (agenda : Agenda) (waiter server : JobId) : Prop :=
  server ∈ agenda.waitingOn waiter

section Awaits

variable {agenda after : Agenda} {id server : JobId} {entry : Entry}

/-- The agenda finds out exactly whether a job waits for another one. -/
theorem waitsFor_iff (agenda : Agenda) (waiter target : JobId) :
    agenda.waitsFor waiter target = true ↔ TransGen agenda.Awaits waiter target := by
  have bounded (id : JobId) (beyond : agenda.created ≤ id) : agenda.waitingOn id = [] := by
    have missing : agenda.live? id = none := by
      rw [live?, Array.getElem?_eq_none beyond]
      rfl
    rw [waitingOn, missing]
  rw [waitsFor, List.any_eq_true, TransGen.tail'_iff]
  refine exists_congr fun id => and_congr (Traversal.mem_breadthFirst bounded) ?_
  exact List.contains_iff_mem

theorem live_of_awaits (awaits : agenda.Awaits id server) :
    ∃ entry, agenda.live? id = some entry ∧ server ∈ entry.waitingOn := by
  rcases live_of_mem_waitingOn awaits with ⟨entry, live⟩
  exact ⟨entry, live, waitingOn_eq live ▸ awaits⟩

/-- New jobs wait for nothing. -/
theorem Enlarged.waitingOn {requests : List Request} (enlarged : Enlarged requests agenda after)
    (id : JobId) : after.waitingOn id = agenda.waitingOn id := by
  cases live : agenda.live? id with
  | some entry => rw [waitingOn_eq live, waitingOn_eq (enlarged.kept live)]
  | none =>
      have old : agenda.waitingOn id = [] := by rw [Agenda.waitingOn, live]
      rw [old]
      cases after_live : after.live? id with
      | none => rw [Agenda.waitingOn, after_live]
      | some entry =>
          rcases enlarged.fresh after_live with before | ⟨-, shape, -⟩
          · rw [live] at before
            cases before
          · rw [waitingOn_eq after_live, shape]

theorem Enlarged.awaits {requests : List Request} (enlarged : Enlarged requests agenda after) :
    after.Awaits = agenda.Awaits := by
  funext waiter server
  rw [Awaits, Awaits, enlarged.waitingOn]

theorem assign_free {job : Job} {request : Request} (live : id < agenda.created)
    (assigned : agenda.assign id job request = .ok (after, server)) :
    ¬ ReflTransGen agenda.Awaits server id := by
  rw [assign] at assigned
  rw [reflTransGen_iff_eq_or_transGen, not_or]
  split at assigned
  · split at assigned
    · cases assigned
    · rename_i allowed
      cases assigned
      rw [not_or, waitsFor_iff] at allowed
      exact ⟨fun same => allowed.1 same.symm, allowed.2⟩
  · obtain rfl := (create_eq assigned).1
    refine ⟨Nat.ne_of_lt live, ?_⟩
    rintro path
    rcases TransGen.head'_iff.mp path with ⟨next, awaits, -⟩
    rcases live_of_awaits awaits with ⟨entry, new_live, -⟩
    exact ne_created new_live rfl

/-- No job that is to serve a suspended one waits for it. -/
theorem assignAll_free {job : Job} {requests : List Request} {servers : List JobId}
    (consistent : agenda.Consistent) (live : id < agenda.created)
    (assigned : agenda.assignAll id job requests = (after, .ok servers)) :
    ∀ server ∈ servers, ¬ ReflTransGen agenda.Awaits server id := by
  induction requests generalizing agenda servers with
  | nil =>
      rw [assignAll] at assigned
      cases assigned
      simp
  | cons request rest ih =>
      rw [assignAll] at assigned
      cases first_eq : agenda.assign id job request with
      | error failure =>
          rw [first_eq] at assigned
          cases assigned
      | ok first =>
          rcases first with ⟨middle, server⟩
          rcases assign_spec consistent live first_eq with ⟨middle_consistent, enlarged, -⟩
          cases rest_eq : middle.assignAll id job rest with
          | mk last outcome =>
              rw [first_eq] at assigned
              dsimp only at assigned
              rw [rest_eq] at assigned
              cases outcome with
              | error failure => cases assigned
              | ok others =>
                  cases assigned
                  have rest_free := ih middle_consistent
                    (Nat.lt_of_lt_of_le live enlarged.created_le) rest_eq
                  rw [enlarged.awaits] at rest_free
                  intro other other_mem
                  rcases List.mem_cons.mp other_mem with rfl | other_mem
                  · exact assign_free live first_eq
                  · exact rest_free other other_mem

/-- Some live job waits for nothing, unless there are no live jobs. -/
theorem exists_idle (consistent : agenda.Consistent) (acyclic : Acyclic agenda.Awaits)
    (live : agenda.live? id = some entry) :
    ∃ idle found, agenda.live? idle = some found ∧ found.waitingOn = [] := by
  let Live (job : JobId) : Prop := ∃ entry, agenda.live? job = some entry
  have some_live : Live id := ⟨entry, live⟩
  rcases acyclic.swap.exists_source (fun (live : Live _) => lt_created live.choose_spec)
    some_live with ⟨idle, ⟨found, found_live⟩, last⟩
  refine ⟨idle, found, found_live, List.eq_nil_iff_forall_not_mem.mpr ?_⟩
  intro server server_mem
  rcases consistent.awaited found_live server_mem with ⟨served, served_live, -⟩
  have awaits : agenda.Awaits idle server := by
    rw [Awaits, waitingOn_eq found_live]
    exact server_mem
  exact last ⟨served, served_live⟩ (.single awaits)

/-- If all live jobs but one are waited for, that one waits for all others. -/
theorem awaited_by_root (consistent : agenda.Consistent) (acyclic : Acyclic agenda.Awaits)
    {root : JobId} (asked : ∀ {id entry}, agenda.live? id = some entry → id ≠ root →
      entry.waiters ≠ []) (live : agenda.live? id = some entry) :
    ReflTransGen agenda.Awaits root id := by
  let Above (waiter : JobId) : Prop :=
    (∃ entry, agenda.live? waiter = some entry) ∧ ReflTransGen agenda.Awaits waiter id
  have above : Above id := ⟨⟨entry, live⟩, .refl⟩
  rcases acyclic.exists_source (fun (above : Above _) => lt_created above.1.choose_spec) above with
    ⟨top, ⟨⟨found, found_live⟩, reaches⟩, first⟩
  by_cases here : top = root
  · exact here ▸ reaches
  · rcases List.exists_mem_of_ne_nil _ (asked found_live here) with ⟨waiter, waiter_mem⟩
    have counted := consistent.converse waiter top
    rw [waitersOf_eq found_live] at counted
    have awaits : agenda.Awaits waiter top := by
      rw [Awaits, ← List.count_pos_iff, counted]
      exact List.count_pos_iff.mpr waiter_mem
    rcases live_of_awaits awaits with ⟨waiting, waiting_live, -⟩
    exact (first ⟨⟨waiting, waiting_live⟩, .head awaits reaches⟩ (.single awaits)).elim

end Awaits

end Agenda

end Cascades
