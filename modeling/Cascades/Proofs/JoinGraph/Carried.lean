import Cascades.Proofs.JoinGraph.Links

/-!
# Links that a condition carries

A condition carries the links between two sets of tables if it has the equality of each of them among
its conjuncts. Other conjuncts do no harm, and two links may have the same text: putting conjuncts in
order drops a conjunct only if an equal one is kept. Reassociation hands every link to the join at
which its ends meet, provided that the tables of the three inputs are told apart by their names.
-/

namespace Cascades

namespace Link

/-- No equality is lost when conjuncts are put in order. -/
theorem mem_canonicalConjunction {link : Link} {scalars : List Scalar}
    (atoms : ∀ scalar ∈ scalars, scalar.conjuncts = [scalar]) (link_mem : link.equality ∈ scalars) :
    link.equality ∈ (Scalar.canonicalConjunction scalars).conjuncts := by
  rcases Scalar.exists_same_ordered link_mem with ⟨kept, kept_mem, same⟩
  rw [Scalar.rigid_equality _ _ _ _ kept same] at kept_mem
  rw [Scalar.conjuncts_canonicalConjunction atoms, if_neg (List.ne_nil_of_mem link_mem)]
  exact kept_mem

end Link

/-- Every link between two sets has its equality among the conjuncts. -/
def Carries (links : List Link) (first second : Finset String) (condition : Scalar) : Prop :=
  ∀ link ∈ links, link.Crosses first second → link.equality ∈ condition.conjuncts

namespace Carries

variable {links : List Link} {first second : Finset String} {condition : Scalar}

theorem symm (carries : Carries links first second condition) : Carries links second first condition :=
  fun link link_mem crosses => carries link link_mem (Link.crosses_comm.mp crosses)

theorem canonical (carries : Carries links first second condition) :
    Carries links first second condition.canonical :=
  fun link link_mem crosses =>
    Link.mem_canonicalConjunction (fun _ => Scalar.conjuncts_of_mem condition) (carries link link_mem crosses)

/-- The equalities of all links between two sets carry them. -/
theorem of_crossing (links : List Link) (first second : Finset String) :
    Carries links first second (conditionAcross links first second) := by
  intro link link_mem crosses
  refine Link.mem_canonicalConjunction (fun _ => conjuncts_of_mem_crossing) ?_
  exact mem_crossing.mpr ⟨link, link_mem, crosses, rfl⟩

end Carries

/-! ## Reassociation -/

section Reassociation

open Rules (connects reassociate)

variable {links : List Link} {stay moved last : Finset String} {movedTables lastTables : List String}
  {outer inner : Scalar}

/--
The conjuncts that connect the moved input with the last one carry the links between them, and the
other ones, with the inner conjuncts, carry the links to the input that stays.
-/
theorem carries_reassociation (stay_moved : Disjoint stay moved) (stay_last : Disjoint stay last)
    (moved_last : Disjoint moved last) (outer_carries : Carries links (stay ∪ moved) last outer)
    (inner_carries : Carries links stay moved inner)
    (moved_iff : ∀ name, name ∈ movedTables ↔ name ∈ moved)
    (last_iff : ∀ name, name ∈ lastTables ↔ name ∈ last) :
    Carries links moved last
        (.canonicalConjunction (outer.conjuncts.filter (connects movedTables lastTables))) ∧
      Carries links stay (moved ∪ last) (.canonicalConjunction
        (inner.conjuncts ++ outer.conjuncts.filter (not ∘ connects movedTables lastTables))) := by
  have connects_link (link : Link) :=
    @connects_iff moved last movedTables lastTables moved_last moved_iff last_iff link
  have outer_atoms {test : Scalar → Bool} (scalar : Scalar)
      (scalar_mem : scalar ∈ outer.conjuncts.filter test) : scalar.conjuncts = [scalar] :=
    Scalar.conjuncts_of_mem outer (List.mem_filter.mp scalar_mem).1
  constructor
  · intro link link_mem crosses
    refine Link.mem_canonicalConjunction outer_atoms (List.mem_filter.mpr ⟨?_, ?_⟩)
    · exact outer_carries link link_mem (Link.crosses_union_left.mpr (.inr crosses))
    · exact (connects_link link).mpr crosses
  · intro link link_mem crosses
    refine Link.mem_canonicalConjunction ?_ (List.mem_append.mpr ?_)
    · intro scalar scalar_mem
      rcases List.mem_append.mp scalar_mem with in_inner | in_outer
      · exact Scalar.conjuncts_of_mem inner in_inner
      · exact outer_atoms scalar in_outer
    · rcases Link.crosses_union_right.mp crosses with to_moved | to_last
      · exact .inl (inner_carries link link_mem to_moved)
      · -- a link to the input that stays connects no tables of the other two
        refine .inr (List.mem_filter.mpr ⟨?_, ?_⟩)
        · exact outer_carries link link_mem (Link.crosses_union_left.mpr (.inl to_last))
        · have apart := not_crosses_both stay_moved stay_last to_last
          rw [← connects_link link] at apart
          simpa using apart

end Reassociation

end Cascades
