import Cascades.Proofs.Scalar.Canonical
import Cascades.Rules.JoinOrder
import Mathlib.Data.Finset.Basic

/-!
# Links between sets of tables

A link is an equality between columns of two tables, which are known by their names. A join of two
sets of tables has the equalities of the links that cross between the sets as its condition. If
different equalities have different texts, this condition is determined by the two sets, and moving
an input of a join to another join gives the conditions of the new sets.
-/

namespace Cascades

/-- An equality between columns of two tables. -/
structure Link where
  left : String
  leftColumn : String
  right : String
  rightColumn : String
deriving DecidableEq

namespace Link

/-- The condition that a link puts on the rows of its tables. -/
def equality (link : Link) : Scalar :=
  .equality link.left link.leftColumn link.right link.rightColumn

/-- The ends of a link are in different ones of two sets. -/
def Crosses (link : Link) (first second : Finset String) : Prop :=
  (link.left ∈ first ∧ link.right ∈ second) ∨ (link.right ∈ first ∧ link.left ∈ second)

instance (link : Link) (first second : Finset String) : Decidable (link.Crosses first second) :=
  inferInstanceAs (Decidable (_ ∨ _))

variable {link : Link} {first second last wider : Finset String}

theorem crosses_comm : link.Crosses first second ↔ link.Crosses second first := by
  rw [Crosses, Crosses, or_comm, and_comm (b := link.left ∈ second),
    and_comm (b := link.right ∈ second)]

theorem crosses_union_left :
    link.Crosses (first ∪ second) last ↔ link.Crosses first last ∨ link.Crosses second last := by
  simp only [Crosses, Finset.mem_union]
  tauto

theorem crosses_union_right :
    link.Crosses last (first ∪ second) ↔ link.Crosses last first ∨ link.Crosses last second := by
  rw [crosses_comm, crosses_union_left, crosses_comm, @crosses_comm link second]

theorem Crosses.mono_left (crosses : link.Crosses first last) (subset : first ⊆ wider) :
    link.Crosses wider last :=
  crosses.imp (And.imp_left (subset ·)) (And.imp_left (subset ·))

end Link

/-- Some link crosses between two sets of tables. -/
def Touch (links : List Link) (first second : Finset String) : Prop :=
  ∃ link ∈ links, link.Crosses first second

/-- A set of tables that no two parts of are without a link. -/
def Linked (links : List Link) (tables : Finset String) : Prop :=
  ∀ part ⊂ tables, part.Nonempty → Touch links part (tables \ part)

section Touch

variable {links : List Link} {first second last wider : Finset String}

theorem Touch.symm (touch : Touch links first second) : Touch links second first := by
  rcases touch with ⟨link, link_mem, crosses⟩
  exact ⟨link, link_mem, Link.crosses_comm.mp crosses⟩

theorem Touch.mono_left (touch : Touch links first last) (subset : first ⊆ wider) :
    Touch links wider last := by
  rcases touch with ⟨link, link_mem, crosses⟩
  exact ⟨link, link_mem, crosses.mono_left subset⟩

theorem Touch.mono_right (touch : Touch links last first) (subset : first ⊆ wider) :
    Touch links last wider :=
  (touch.symm.mono_left subset).symm

theorem touch_union_left : Touch links (first ∪ second) last ↔
    Touch links first last ∨ Touch links second last := by
  simp only [Touch, Link.crosses_union_left, and_or_left, exists_or]

/-- Touching is a matter of single tables. -/
theorem Touch.single (touch : Touch links first second) :
    ∃ table ∈ first, Touch links {table} second := by
  rcases touch with ⟨link, link_mem, ⟨left_mem, right_mem⟩ | ⟨right_mem, left_mem⟩⟩
  · exact ⟨link.left, left_mem, link, link_mem, .inl ⟨Finset.mem_singleton_self _, right_mem⟩⟩
  · exact ⟨link.right, right_mem, link, link_mem, .inr ⟨Finset.mem_singleton_self _, left_mem⟩⟩

theorem linked_singleton (table : String) : Linked links {table} := by
  intro part proper nonempty
  rw [Finset.ssubset_singleton_iff] at proper
  exact (nonempty.ne_empty proper).elim

/-- Two linked sets with a link between them are linked together. -/
theorem Linked.union (first_linked : Linked links first) (second_linked : Linked links second)
    (touch : Touch links first second) : Linked links (first ∪ second) := by
  intro part proper nonempty
  -- a part that splits one of the sets is linked with the rest of that set
  have splits {side : Finset String} (linked : Linked links side) (side_subset : side ⊆ first ∪ second)
      (meets : (part ∩ side).Nonempty) (misses : ¬ side ⊆ part) :
      Touch links part ((first ∪ second) \ part) := by
    have smaller : part ∩ side ⊂ side :=
      ⟨Finset.inter_subset_right, fun within => misses fun table table_mem =>
        Finset.mem_of_mem_inter_left (within table_mem)⟩
    refine ((linked _ smaller meets).mono_left Finset.inter_subset_left).mono_right ?_
    intro table table_mem
    rw [Finset.mem_sdiff, Finset.mem_inter] at table_mem
    exact Finset.mem_sdiff.mpr ⟨side_subset table_mem.1, fun in_part =>
      table_mem.2 ⟨in_part, table_mem.1⟩⟩
  -- a part that splits neither is one of the sets
  have whole {side other : Finset String} (covers : first ∪ second = side ∪ other)
      (touches : Touch links side other) (full : side ⊆ part) :
      (part ∩ other).Nonempty ∨ Touch links part ((first ∪ second) \ part) := by
    rcases (part ∩ other).eq_empty_or_nonempty with empty | meets
    · refine .inr ((touches.mono_left full).mono_right ?_)
      intro table table_mem
      refine Finset.mem_sdiff.mpr ⟨covers ▸ Finset.mem_union_right side table_mem, fun in_part => ?_⟩
      have both := Finset.mem_inter.mpr ⟨in_part, table_mem⟩
      rw [empty] at both
      exact Finset.notMem_empty table both
    · exact .inl meets
  have not_all (first_full : first ⊆ part) (second_full : second ⊆ part) : False :=
    proper.2 (Finset.union_subset first_full second_full)
  have first_subset : first ⊆ first ∪ second := Finset.subset_union_left
  have second_subset : second ⊆ first ∪ second := Finset.subset_union_right
  by_cases first_full : first ⊆ part
  · rcases whole rfl touch first_full with meets | done
    · exact splits second_linked second_subset meets fun full => not_all first_full full
    · exact done
  · by_cases second_full : second ⊆ part
    · rcases whole (Finset.union_comm first second) touch.symm second_full with meets | done
      · exact splits first_linked first_subset meets first_full
      · exact done
    · rcases nonempty with ⟨table, table_mem⟩
      rcases Finset.mem_union.mp (proper.1 table_mem) with in_first | in_second
      · exact splits first_linked first_subset
          ⟨table, Finset.mem_inter.mpr ⟨table_mem, in_first⟩⟩ first_full
      · exact splits second_linked second_subset
          ⟨table, Finset.mem_inter.mpr ⟨table_mem, in_second⟩⟩ second_full

end Touch

/-! ## Conditions -/

/-- The equalities of the links that cross between two sets. -/
def crossing (links : List Link) (first second : Finset String) : List Scalar :=
  (links.filter fun link => link.Crosses first second).map Link.equality

/-- The condition of a join of two sets. -/
def conditionAcross (links : List Link) (first second : Finset String) : Scalar :=
  .canonicalConjunction (crossing links first second)

/-- The join of two sets. -/
def joinAcross (links : List Link) (first second : Finset String) : Operator :=
  .logical (.join .inner (conditionAcross links first second))

section Conditions

variable {links : List Link} {first second last : Finset String}

theorem mem_crossing {scalar : Scalar} : scalar ∈ crossing links first second ↔
    ∃ link ∈ links, link.Crosses first second ∧ link.equality = scalar := by
  simp [crossing, and_assoc]

theorem crossing_ne_nil : crossing links first second ≠ [] ↔ Touch links first second := by
  simp [crossing, Touch]

theorem crossing_comm : crossing links first second = crossing links second first := by
  simp only [crossing, Link.crosses_comm]

theorem conditionAcross_comm : conditionAcross links first second = conditionAcross links second first := by
  rw [conditionAcross, conditionAcross, crossing_comm]

theorem joinAcross_comm : joinAcross links first second = joinAcross links second first := by
  rw [joinAcross, joinAcross, conditionAcross_comm]

theorem conjuncts_of_mem_crossing {scalar : Scalar} (scalar_mem : scalar ∈ crossing links first second) :
    scalar.conjuncts = [scalar] := by
  rcases mem_crossing.mp scalar_mem with ⟨link, -, -, rfl⟩
  rfl

@[simp]
theorem canonical_joinAcross : (joinAcross links first second).canonical = joinAcross links first second := by
  rw [joinAcross, Operator.canonical, LogicalOperator.canonical, conditionAcross,
    Scalar.canonical_canonicalConjunction fun _ => conjuncts_of_mem_crossing]

@[simp]
theorem isLogical_joinAcross : (joinAcross links first second).isLogical = true :=
  rfl

theorem legible_crossing (legible : Scalar.Legible (links.map Link.equality)) :
    Scalar.Legible (crossing links first second) :=
  legible.subset (List.map_subset _ (List.filter_subset_self _))

theorem conjuncts_conditionAcross (touch : Touch links first second) :
    (conditionAcross links first second).conjuncts = Scalar.ordered (crossing links first second) := by
  rw [conditionAcross, Scalar.conjuncts_canonicalConjunction fun _ => conjuncts_of_mem_crossing,
    if_neg (crossing_ne_nil.mpr touch)]

/-- The conjuncts of a join are the equalities of the links that cross between its inputs. -/
theorem mem_conjuncts (legible : Scalar.Legible (links.map Link.equality))
    (touch : Touch links first second) {scalar : Scalar} :
    scalar ∈ (conditionAcross links first second).conjuncts ↔
      ∃ link ∈ links, link.Crosses first second ∧ link.equality = scalar := by
  rw [conjuncts_conditionAcross touch, (legible_crossing legible).mem_ordered, mem_crossing]

theorem conditionAcross_congr (legible : Scalar.Legible (links.map Link.equality))
    {scalars : List Scalar}
    (same : ∀ scalar, scalar ∈ scalars ↔ ∃ link ∈ links, link.Crosses first second ∧ link.equality = scalar) :
    Scalar.canonicalConjunction scalars = conditionAcross links first second := by
  have ordered_eq := (legible_crossing legible).ordered_congr fun scalar =>
    mem_crossing.trans (same scalar).symm
  rw [Scalar.ordered, Scalar.ordered] at ordered_eq
  rw [conditionAcross, Scalar.canonicalConjunction, Scalar.canonicalConjunction, ordered_eq]

/-- The condition of a join refers to no enclosing query. -/
theorem hasOuterRefs_conditionAcross : (conditionAcross links first second).hasOuterRefs = false := by
  refine Scalar.hasOuterRefs_canonicalConjunction fun scalar scalar_mem => ?_
  rcases mem_crossing.mp scalar_mem with ⟨link, -, -, rfl⟩
  rfl

end Conditions

/-! ## Reassociation -/

section Reassociation

open Rules (connects reassociate)

variable {links : List Link} {stay moved last : Finset String} {movedTables lastTables : List String}

/-- The conjuncts that can be moved are those of the links to the moved input. -/
theorem connects_iff (moved_last : Disjoint moved last)
    (moved_iff : ∀ name, name ∈ movedTables ↔ name ∈ moved)
    (last_iff : ∀ name, name ∈ lastTables ↔ name ∈ last) {link : Link} :
    connects movedTables lastTables link.equality = true ↔ link.Crosses moved last := by
  have tables_eq : link.equality.tables = [link.left, link.right] := rfl
  have connects_eq : connects movedTables lastTables link.equality = true ↔
      ((link.left ∈ moved ∨ link.left ∈ last) ∧ (link.right ∈ moved ∨ link.right ∈ last)) ∧
        (link.left ∈ moved ∨ link.right ∈ moved) ∧ (link.left ∈ last ∨ link.right ∈ last) := by
    simp [connects, tables_eq, moved_iff, last_iff, and_assoc]
  have not_both {name : String} (in_moved : name ∈ moved) (in_last : name ∈ last) : False :=
    Finset.disjoint_left.mp moved_last in_moved in_last
  rw [connects_eq]
  constructor
  · rintro ⟨⟨left_in, right_in⟩, some_moved, some_last⟩
    rcases left_in with left_moved | left_last
    · rcases some_last with left_last | right_last
      · exact (not_both left_moved left_last).elim
      · exact .inl ⟨left_moved, right_last⟩
    · rcases some_moved with left_moved | right_moved
      · exact (not_both left_moved left_last).elim
      · exact .inr ⟨right_moved, left_last⟩
  · rintro (⟨left_moved, right_last⟩ | ⟨right_moved, left_last⟩)
    · exact ⟨⟨.inl left_moved, .inr right_last⟩, .inl left_moved, .inr right_last⟩
    · exact ⟨⟨.inr left_last, .inl right_moved⟩, .inr right_moved, .inl left_last⟩

/-- A link to one set leads to no other one. -/
theorem not_crosses_both {link : Link} (stay_moved : Disjoint stay moved)
    (stay_last : Disjoint stay last) (stays : link.Crosses stay last) : ¬ link.Crosses moved last := by
  intro moves
  rcases stays with ⟨left_stay, -⟩ | ⟨right_stay, -⟩
  · rcases moves with ⟨left_moved, -⟩ | ⟨-, left_last⟩
    · exact Finset.disjoint_left.mp stay_moved left_stay left_moved
    · exact Finset.disjoint_left.mp stay_last left_stay left_last
  · rcases moves with ⟨-, right_last⟩ | ⟨right_moved, -⟩
    · exact Finset.disjoint_left.mp stay_last right_stay right_last
    · exact Finset.disjoint_left.mp stay_moved right_stay right_moved

/-- The moved input is joined with the last one first, if some link allows it. -/
theorem reassociate_across (legible : Scalar.Legible (links.map Link.equality))
    (stay_moved : Disjoint stay moved) (stay_last : Disjoint stay last)
    (moved_last : Disjoint moved last) (inner_touch : Touch links stay moved)
    (outer_touch : Touch links (stay ∪ moved) last)
    (moved_iff : ∀ name, name ∈ movedTables ↔ name ∈ moved)
    (last_iff : ∀ name, name ∈ lastTables ↔ name ∈ last) {stayId movedId lastId : GroupId} :
    reassociate (conditionAcross links (stay ∪ moved) last) (conditionAcross links stay moved)
        stayId movedId lastId movedTables lastTables =
      if crossing links moved last = [] then []
      else [.nested (joinAcross links stay (moved ∪ last))
        [.group stayId, .fresh (joinAcross links moved last) [.group movedId, .group lastId]]] := by
  have connects_link (link : Link) :=
    @connects_iff moved last movedTables lastTables moved_last moved_iff last_iff link
  have pushed_iff (scalar : Scalar) : scalar ∈ (conditionAcross links (stay ∪ moved) last).conjuncts.filter
      (connects movedTables lastTables) ↔
        ∃ link ∈ links, link.Crosses moved last ∧ link.equality = scalar := by
    rw [List.mem_filter, mem_conjuncts legible outer_touch]
    constructor
    · rintro ⟨⟨link, link_mem, -, rfl⟩, connected⟩
      exact ⟨link, link_mem, (connects_link link).mp connected, rfl⟩
    · rintro ⟨link, link_mem, crosses, rfl⟩
      exact ⟨⟨link, link_mem, Link.crosses_union_left.mpr (.inr crosses), rfl⟩,
        (connects_link link).mpr crosses⟩
  have kept_iff (scalar : Scalar) : scalar ∈ (conditionAcross links stay moved).conjuncts ++
      (conditionAcross links (stay ∪ moved) last).conjuncts.filter
        (not ∘ connects movedTables lastTables) ↔
        ∃ link ∈ links, link.Crosses stay (moved ∪ last) ∧ link.equality = scalar := by
    rw [List.mem_append, List.mem_filter, mem_conjuncts legible outer_touch,
      mem_conjuncts legible inner_touch]
    constructor
    · rintro (⟨link, link_mem, crosses, rfl⟩ | ⟨⟨link, link_mem, crosses, rfl⟩, unconnected⟩)
      · exact ⟨link, link_mem, Link.crosses_union_right.mpr (.inl crosses), rfl⟩
      · refine ⟨link, link_mem, Link.crosses_union_right.mpr (.inr ?_), rfl⟩
        refine (Link.crosses_union_left.mp crosses).resolve_right fun moves => ?_
        simp [(connects_link link).mpr moves] at unconnected
    · rintro ⟨link, link_mem, crosses, rfl⟩
      rcases Link.crosses_union_right.mp crosses with inner | outer
      · exact .inl ⟨link, link_mem, inner, rfl⟩
      · refine .inr ⟨⟨link, link_mem, Link.crosses_union_left.mpr (.inl outer), rfl⟩, ?_⟩
        have apart := not_crosses_both stay_moved stay_last outer
        rw [← connects_link link] at apart
        simpa using apart
  have empty_iff : ((conditionAcross links (stay ∪ moved) last).conjuncts.filter
      (connects movedTables lastTables)).isEmpty = true ↔ crossing links moved last = [] := by
    rw [List.isEmpty_iff, List.eq_nil_iff_forall_not_mem, List.eq_nil_iff_forall_not_mem]
    simp only [pushed_iff, mem_crossing]
  rw [reassociate, List.partition_eq_filter_filter]
  dsimp only
  simp only [empty_iff, joinAcross, conditionAcross_congr legible pushed_iff,
    conditionAcross_congr legible kept_iff]

end Reassociation

end Cascades
