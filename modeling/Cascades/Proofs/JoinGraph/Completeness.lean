import Cascades.Proofs.JoinGraph.Links
import Mathlib.Data.Finset.Card

/-!
# Completeness of commutativity and associativity

The groups of a memo are labelled with the sets of tables that they join. Several groups may have one
label. If the joins are closed under commutativity and associativity, any two groups with disjoint
labels that touch are joined, whatever the order in which the groups came about.

First every group is joined with every single table that touches it: some other group is joined with
it, and associativity takes that group apart until one table is left. For two arbitrary groups the
induction is on the tables that the second one lacks, and for the same second group on the age of the
first. If a table outside both touches the second group, it is added to the second group. If none does,
the first group has a part that touches the second one, and its other part comes later; a group that
was made as an input of another one can also have its sibling inside the second group.
-/

namespace Cascades

/-- Why a group exists: it is a scan, or it was given, or it was made as an input of another group. -/
inductive Origin (links : List Link) (tables : Finset String) (label : GroupId → Finset String)
    (scan : String → GroupId) (Joined : GroupId → GroupId → GroupId → Prop) : GroupId → Prop
  | scan {table : String} : table ∈ tables → Origin links tables label scan Joined (scan table)
  | given {group left right : GroupId} : left < group → right < group → Joined group left right →
      Joined group right left → Origin links tables label scan Joined group
  | made {group left right sibling parent : GroupId} : left < group → right < group →
      sibling < group → parent < group → Joined group left right → Joined parent sibling group →
        Touch links (label left) (label sibling) → Origin links tables label scan Joined group

/-- Joins of labelled groups that are closed under commutativity and associativity. -/
structure Saturated (links : List Link) (tables : Finset String) (label : GroupId → Finset String)
    (bound : Nat) (scan : String → GroupId) (Joined : GroupId → GroupId → GroupId → Prop) : Prop where
  exist : ∀ {group left right}, Joined group left right →
    group < bound ∧ left < bound ∧ right < bound
  label_eq : ∀ {group left right}, Joined group left right →
    label group = label left ∪ label right
  disjoint : ∀ {group left right}, Joined group left right → Disjoint (label left) (label right)
  touch : ∀ {group left right}, Joined group left right → Touch links (label left) (label right)
  unique : ∀ {first second left right}, Joined first left right → Joined second left right →
    first = second
  commuted : ∀ {group left right}, Joined group left right → ∃ other, Joined other right left
  associated : ∀ {group outer last stay moved}, Joined group outer last →
    Joined outer stay moved ∨ Joined outer moved stay → Touch links (label moved) (label last) →
      ∃ inner other, Joined inner moved last ∧ Joined other stay inner
  scan_lt : ∀ {table}, table ∈ tables → scan table < bound
  label_scan : ∀ {table}, table ∈ tables → label (scan table) = {table}
  within : ∀ {group}, group < bound → label group ⊆ tables
  linked : ∀ {group}, group < bound → Linked links (label group)
  parent : ∀ {group}, group < bound → label group ≠ tables →
    ∃ other sibling, Joined other sibling group
  origin : ∀ {group}, group < bound → Origin links tables label scan Joined group

namespace Saturated

variable {links : List Link} {tables : Finset String} {label : GroupId → Finset String} {bound : Nat}
  {scan : String → GroupId} {Joined : GroupId → GroupId → GroupId → Prop}
  (saturated : Saturated links tables label bound scan Joined)
include saturated

/-- Of two joined groups the first can be taken apart down to a single table. -/
theorem single {group first second : GroupId} (joined : Joined group first second) :
    ∃ table ∈ tables, ∃ other, Joined other (scan table) second := by
  induction first using Nat.strongRecOn generalizing group with
  | ind first ih =>
      have touch := saturated.touch joined
      -- one part of the first group touches the second one
      have descend {left right : GroupId} (left_lt : left < first) (right_lt : right < first)
          (parts : Joined first left right) :
          ∃ table ∈ tables, ∃ other, Joined other (scan table) second := by
        rw [saturated.label_eq parts, touch_union_left] at touch
        rcases touch with left_touch | right_touch
        · rcases saturated.associated joined (.inr parts) left_touch with ⟨inner, -, smaller, -⟩
          exact ih left left_lt smaller
        · rcases saturated.associated joined (.inl parts) right_touch with ⟨inner, -, smaller, -⟩
          exact ih right right_lt smaller
      cases saturated.origin (saturated.exist joined).2.1 with
      | scan table_mem => exact ⟨_, table_mem, group, joined⟩
      | given left_lt right_lt parts _ => exact descend left_lt right_lt parts
      | made left_lt right_lt _ _ parts _ _ => exact descend left_lt right_lt parts

/-- The number of tables that a group lacks. -/
theorem lacks_lt {group larger : GroupId} (larger_lt : larger < bound)
    (proper : label group ⊂ label larger) :
    tables.card - (label larger).card < tables.card - (label group).card := by
  have more := Finset.card_lt_card proper
  have most := Finset.card_le_card (saturated.within larger_lt)
  omega

theorem ssubset_of_joined {group left right : GroupId} (joined : Joined group left right) :
    label right ⊂ label group := by
  rw [saturated.label_eq joined]
  refine Finset.ssubset_iff_subset_ne.mpr ⟨Finset.subset_union_right, fun same => ?_⟩
  rcases (saturated.touch joined).single with ⟨table, table_mem, -⟩
  have other_mem : table ∈ label right := by
    rw [same]
    exact Finset.mem_union_left _ table_mem
  exact Finset.disjoint_left.mp (saturated.disjoint joined) table_mem other_mem

/-- Every group is joined with the single tables that touch it. -/
theorem joined_scan {group : GroupId} (group_lt : group < bound) {table : String}
    (table_mem : table ∈ tables) (outside : table ∉ label group)
    (touch : Touch links {table} (label group)) : ∃ other, Joined other (scan table) group := by
  induction lacks : tables.card - (label group).card using Nat.strongRecOn generalizing group with
  | ind lacking ih =>
      have incomplete : label group ≠ tables := fun same => outside (same ▸ table_mem)
      rcases saturated.parent group_lt incomplete with ⟨parent, sibling, joined⟩
      rcases saturated.single joined with ⟨first, first_mem, larger, larger_joined⟩
      by_cases same : first = table
      · exact ⟨larger, same ▸ larger_joined⟩
      · have larger_lt := (saturated.exist larger_joined).1
        have label_eq := saturated.label_eq larger_joined
        rw [saturated.label_scan first_mem] at label_eq
        have larger_outside : table ∉ label larger := by
          rw [label_eq, Finset.mem_union, Finset.mem_singleton, not_or]
          exact ⟨Ne.symm same, outside⟩
        have larger_touch : Touch links {table} (label larger) := by
          rw [label_eq]
          exact touch.mono_right Finset.subset_union_right
        have fewer := saturated.lacks_lt larger_lt (saturated.ssubset_of_joined larger_joined)
        rcases ih _ (lacks ▸ fewer) larger_lt larger_outside larger_touch rfl with ⟨whole, whole_joined⟩
        rcases saturated.commuted whole_joined with ⟨turned, turned_joined⟩
        have last_touch : Touch links (label group) (label (scan table)) := by
          rw [saturated.label_scan table_mem]
          exact touch.symm
        rcases saturated.associated turned_joined (.inl larger_joined) last_touch with
          ⟨inner, -, inner_joined, -⟩
        exact saturated.commuted inner_joined

omit saturated in
/-- A linked set that avoids the first of two sets lies in the second one, or outside both. -/
theorem inside_or_outside {part first second : Finset String} (part_linked : Linked links part)
    (part_subset : part ⊆ tables) (avoids : Disjoint part first)
    (closed : ∀ table ∈ tables, table ∉ first → table ∉ second → ¬ Touch links {table} second) :
    part ⊆ second ∨ Disjoint part second := by
  by_cases inside : part ⊆ second
  · exact .inl inside
  · refine .inr ?_
    rw [Finset.disjoint_iff_inter_eq_empty, ← Finset.not_nonempty_iff_eq_empty]
    intro meets
    have proper : part ∩ second ⊂ part :=
      ⟨Finset.inter_subset_left, fun within => inside fun table table_mem =>
        Finset.mem_of_mem_inter_right (within table_mem)⟩
    rcases (part_linked _ proper meets).symm.single with ⟨table, table_mem, touch⟩
    rw [Finset.mem_sdiff, Finset.mem_inter] at table_mem
    exact closed table (part_subset table_mem.1) (Finset.disjoint_left.mp avoids table_mem.1)
      (fun in_second => table_mem.2 ⟨table_mem.1, in_second⟩)
      (touch.mono_right Finset.inter_subset_right)

/-- Two groups are to be joined. -/
def Fits (links : List Link) (label : GroupId → Finset String) (bound : Nat)
    (first second : GroupId) : Prop :=
  first < bound ∧ second < bound ∧ Disjoint (label first) (label second) ∧
    Touch links (label first) (label second)

section Step

variable {first second : GroupId} (fits : Fits links label bound first second)
  (larger : ∀ other wider, label second ⊂ label wider → Fits links label bound other wider →
    ∃ group, Joined group other wider)
include fits larger

/-- A table outside both groups that touches the second one is added to it. -/
theorem joined_of_outside {table : String} (table_mem : table ∈ tables)
    (outside_first : table ∉ label first) (outside_second : table ∉ label second)
    (table_touch : Touch links {table} (label second)) : ∃ group, Joined group first second := by
  rcases fits with ⟨first_lt, second_lt, disjoint, touch⟩
  rcases saturated.joined_scan second_lt table_mem outside_second table_touch with ⟨wider, wider_joined⟩
  have label_eq := saturated.label_eq wider_joined
  rw [saturated.label_scan table_mem] at label_eq
  have wider_fits : Fits links label bound first wider := by
    refine ⟨first_lt, (saturated.exist wider_joined).1, ?_, ?_⟩
    · rw [label_eq, Finset.disjoint_union_right, Finset.disjoint_singleton_right]
      exact ⟨outside_first, disjoint⟩
    · rw [label_eq]
      exact touch.mono_right Finset.subset_union_right
  rcases larger first wider (saturated.ssubset_of_joined wider_joined) wider_fits with
    ⟨group, joined⟩
  rcases saturated.commuted joined with ⟨turned, turned_joined⟩
  rcases saturated.associated turned_joined (.inl wider_joined) touch.symm with
    ⟨inner, -, inner_joined, -⟩
  exact saturated.commuted inner_joined

/-- One part of the first group is joined with the second group before the other part. -/
theorem joined_of_part {near far : GroupId} (parts : Joined first near far)
    (near_joined : ∃ group, Joined group near second) : ∃ group, Joined group first second := by
  rcases fits with ⟨first_lt, second_lt, disjoint, touch⟩
  have first_eq := saturated.label_eq parts
  rw [first_eq, Finset.disjoint_union_left] at disjoint
  rcases near_joined with ⟨partial_, partial_joined⟩
  rcases saturated.commuted partial_joined with ⟨wider, wider_joined⟩
  have label_eq := saturated.label_eq wider_joined
  have proper := saturated.ssubset_of_joined partial_joined
  rw [saturated.label_eq partial_joined, Finset.union_comm, ← label_eq] at proper
  have wider_fits : Fits links label bound far wider := by
    refine ⟨(saturated.exist parts).2.2, (saturated.exist wider_joined).1, ?_, ?_⟩
    · rw [label_eq, Finset.disjoint_union_right]
      exact ⟨disjoint.2, (saturated.disjoint parts).symm⟩
    · rw [label_eq]
      exact (saturated.touch parts).symm.mono_right Finset.subset_union_right
  rcases larger far wider proper wider_fits with ⟨group, joined⟩
  rcases saturated.commuted joined with ⟨turned, turned_joined⟩
  rcases saturated.associated turned_joined (.inl wider_joined) (saturated.touch parts) with
    ⟨inner, other, inner_joined, other_joined⟩
  obtain rfl := saturated.unique inner_joined parts
  exact saturated.commuted other_joined

/-- The first group is joined with the second one, if all older groups that fit are. -/
theorem joined_of_older (older : ∀ other < first, Fits links label bound other second →
    ∃ group, Joined group other second) : ∃ group, Joined group first second := by
  rcases fits with ⟨first_lt, second_lt, disjoint, touch⟩
  by_cases outside : ∃ table ∈ tables, table ∉ label first ∧ table ∉ label second ∧
      Touch links {table} (label second)
  · rcases outside with ⟨table, table_mem, outside_first, outside_second, table_touch⟩
    exact saturated.joined_of_outside ⟨first_lt, second_lt, disjoint, touch⟩ larger table_mem
      outside_first outside_second table_touch
  -- an older part of the first group that touches the second group is joined with it
  have part {near far : GroupId} (near_lt : near < first) (near_subset : label near ⊆ label first)
      (parts : Joined first near far) (near_touch : Touch links (label near) (label second)) :
      ∃ group, Joined group first second := by
    refine saturated.joined_of_part ⟨first_lt, second_lt, disjoint, touch⟩ larger parts ?_
    exact older near near_lt ⟨(saturated.exist parts).2.1, second_lt,
      disjoint.mono_left near_subset, near_touch⟩
  cases saturated.origin first_lt with
  | @scan table table_mem =>
      rw [saturated.label_scan table_mem] at disjoint touch
      exact saturated.joined_scan second_lt table_mem (Finset.disjoint_singleton_left.mp disjoint) touch
  | @given _ left right left_lt right_lt parts turned =>
      have label_eq := saturated.label_eq parts
      rw [label_eq, touch_union_left] at touch
      rcases touch with left_touch | right_touch
      · exact part left_lt (label_eq ▸ Finset.subset_union_left) parts left_touch
      · exact part right_lt (label_eq ▸ Finset.subset_union_right) turned right_touch
  | @made _ left right sibling parent left_lt _ sibling_lt parent_lt parts joined left_touch =>
      have label_eq := saturated.label_eq parts
      have parent_eq := saturated.label_eq joined
      have sibling_bound := (saturated.exist joined).2.1
      have closed : ∀ table ∈ tables, table ∉ label first → table ∉ label second →
          ¬ Touch links {table} (label second) := fun table table_mem not_first not_second touches =>
        outside ⟨table, table_mem, not_first, not_second, touches⟩
      rcases inside_or_outside (saturated.linked sibling_bound) (saturated.within sibling_bound)
        (saturated.disjoint joined) closed with inside | apart
      · exact part left_lt (label_eq ▸ Finset.subset_union_left) parts (left_touch.mono_right inside)
      · have parent_fits : Fits links label bound parent second := by
          refine ⟨(saturated.exist joined).1, second_lt, ?_, ?_⟩
          · rw [parent_eq, Finset.disjoint_union_left]
            exact ⟨apart, disjoint⟩
          · rw [parent_eq]
            exact touch.mono_left Finset.subset_union_right
        rcases older parent parent_lt parent_fits with ⟨group, whole⟩
        rcases saturated.associated whole (.inl joined) touch with ⟨inner, -, inner_joined, -⟩
        exact ⟨inner, inner_joined⟩

end Step

/-- Groups with disjoint labels that touch are joined. -/
theorem complete {first second : GroupId} (fits : Fits links label bound first second) :
    ∃ group, Joined group first second := by
  induction lacks : tables.card - (label second).card using Nat.strongRecOn
    generalizing first second with
  | ind lacking larger_ih =>
      have larger (other wider : GroupId) (proper : label second ⊂ label wider)
          (wider_fits : Fits links label bound other wider) : ∃ group, Joined group other wider :=
        larger_ih _ (lacks ▸ saturated.lacks_lt wider_fits.2.1 proper) wider_fits rfl
      induction first using Nat.strongRecOn with
      | ind first older_ih =>
          exact saturated.joined_of_older fits larger older_ih

end Saturated

end Cascades
