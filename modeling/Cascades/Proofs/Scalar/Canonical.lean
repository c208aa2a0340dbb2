import Cascades.Operator.Canonical

/-!
# Canonical conditions

The conjuncts of a condition in canonical order are sorted by their texts, and no two neighbours are
the same. A list of which both is true already is its own canonical order, so putting a condition in
canonical order twice is the same as once. If different conjuncts have different texts, the canonical
order depends on nothing but the set of conjuncts.
-/

namespace Cascades

namespace Text

theorem le_refl (text : String) : le text text = true :=
  charsLe_refl _

theorem le_total (left right : String) : le left right = true ∨ le right left = true :=
  charsLe_total _ _

theorem le_trans {left middle right : String} (first : le left middle = true)
    (second : le middle right = true) : le left right = true :=
  charsLe_trans first second

theorem le_antisymm {left right : String} (first : le left right = true)
    (second : le right left = true) : left = right :=
  String.toList_inj.mp (charsLe_antisymm first second)

end Text

namespace Scalar

/-- The list is in the order of its texts. -/
def Sorted (scalars : List Scalar) : Prop :=
  scalars.Pairwise fun first second => Text.le first.text second.text = true

/-- No two neighbours of the list are the same. -/
def Distinct : List Scalar → Prop
  | first :: second :: rest => first.same second = false ∧ Distinct (second :: rest)
  | _ => True

theorem mem_insertByText {scalar other : Scalar} {scalars : List Scalar} :
    other ∈ insertByText scalar scalars ↔ other = scalar ∨ other ∈ scalars := by
  induction scalars with
  | nil => simp [insertByText]
  | cons first rest ih =>
      rw [insertByText]
      split
      · simp
      · simp only [List.mem_cons, ih]
        exact or_left_comm

theorem mem_sortByText {scalar : Scalar} {scalars : List Scalar} :
    scalar ∈ sortByText scalars ↔ scalar ∈ scalars := by
  induction scalars with
  | nil => simp [sortByText]
  | cons first rest ih =>
      rw [sortByText, List.foldr_cons, ← sortByText, mem_insertByText, ih, List.mem_cons]

theorem Sorted.insertByText {scalar : Scalar} {scalars : List Scalar} (sorted : Sorted scalars) :
    Sorted (insertByText scalar scalars) := by
  induction scalars with
  | nil => simp [Scalar.insertByText, Sorted]
  | cons first rest ih =>
      rw [Scalar.insertByText]
      have ⟨first_le, rest_sorted⟩ := List.pairwise_cons.mp sorted
      split
      · rename_i before
        refine List.pairwise_cons.mpr ⟨?_, sorted⟩
        intro other other_mem
        rcases List.mem_cons.mp other_mem with rfl | other_mem
        · exact before
        · exact Text.le_trans before (first_le other other_mem)
      · rename_i after
        refine List.pairwise_cons.mpr ⟨?_, ih rest_sorted⟩
        intro other other_mem
        rcases mem_insertByText.mp other_mem with rfl | other_mem
        · exact (Text.le_total _ _).resolve_left after
        · exact first_le other other_mem

theorem sorted_sortByText (scalars : List Scalar) : Sorted (sortByText scalars) := by
  induction scalars with
  | nil => exact List.Pairwise.nil
  | cons first rest ih => exact ih.insertByText

/-- A sorted list is its own order. -/
theorem Sorted.sortByText {scalars : List Scalar} (sorted : Sorted scalars) :
    sortByText scalars = scalars := by
  induction scalars with
  | nil => rfl
  | cons first rest ih =>
      have ⟨first_le, rest_sorted⟩ := List.pairwise_cons.mp sorted
      rw [Scalar.sortByText, List.foldr_cons, ← Scalar.sortByText, ih rest_sorted]
      cases rest with
      | nil => rfl
      | cons second rest =>
          rw [Scalar.insertByText, if_pos (first_le second List.mem_cons_self)]

theorem dedupAfter_sublist (first : Scalar) (rest : List Scalar) :
    (dedupAfter first rest).Sublist (first :: rest) := by
  induction rest generalizing first with
  | nil => exact List.Sublist.refl _
  | cons second rest ih =>
      rw [dedupAfter]
      split
      · exact (ih first).trans ((List.sublist_cons_self second rest).cons_cons first)
      · exact (ih second).cons_cons first

/-- Dropping repeats of the neighbour keeps a list in order. -/
theorem dedupAdjacent_sublist (scalars : List Scalar) :
    (dedupAdjacent scalars).Sublist scalars := by
  cases scalars with
  | nil => exact List.Sublist.refl _
  | cons first rest => exact dedupAfter_sublist first rest

theorem dedupAfter_head (first : Scalar) (rest : List Scalar) :
    ∃ others, dedupAfter first rest = first :: others := by
  induction rest with
  | nil => exact ⟨[], rfl⟩
  | cons second rest ih =>
      rw [dedupAfter]
      split
      · exact ih
      · exact ⟨_, rfl⟩

theorem distinct_dedupAfter (first : Scalar) (rest : List Scalar) :
    Distinct (dedupAfter first rest) := by
  induction rest generalizing first with
  | nil => exact trivial
  | cons second rest ih =>
      rw [dedupAfter]
      split
      · exact ih first
      · rename_i different
        have rest_distinct := ih second
        rcases dedupAfter_head second rest with ⟨others, found⟩
        rw [found] at rest_distinct ⊢
        exact ⟨by simpa using different, rest_distinct⟩

theorem distinct_dedupAdjacent (scalars : List Scalar) : Distinct (dedupAdjacent scalars) := by
  cases scalars with
  | nil => exact trivial
  | cons first rest => exact distinct_dedupAfter first rest

/-- A list without such repeats stays as it is. -/
theorem Distinct.dedupAdjacent {scalars : List Scalar} (distinct : Distinct scalars) :
    dedupAdjacent scalars = scalars := by
  have after (first : Scalar) (rest : List Scalar) (distinct : Distinct (first :: rest)) :
      dedupAfter first rest = first :: rest := by
    induction rest generalizing first with
    | nil => rfl
    | cons second rest ih =>
        rw [dedupAfter, distinct.1, if_neg (by simp), ih second distinct.2]
  cases scalars with
  | nil => rfl
  | cons first rest => exact after first rest distinct

/-- The conjuncts in canonical order. -/
def ordered (scalars : List Scalar) : List Scalar :=
  dedupAdjacent (sortByText scalars)

theorem sorted_ordered (scalars : List Scalar) : Sorted (ordered scalars) :=
  (sorted_sortByText scalars).sublist (dedupAdjacent_sublist _)

theorem mem_of_mem_ordered {scalar : Scalar} {scalars : List Scalar}
    (scalar_mem : scalar ∈ ordered scalars) : scalar ∈ scalars :=
  mem_sortByText.mp ((dedupAdjacent_sublist _).subset scalar_mem)

/-- What is dropped as a repeat is the same as what is kept in its place. -/
theorem exists_same_dedupAfter {first scalar : Scalar} {rest : List Scalar}
    (scalar_mem : scalar ∈ first :: rest) : ∃ kept ∈ dedupAfter first rest, kept.same scalar = true := by
  induction rest generalizing first with
  | nil => exact ⟨scalar, by simpa [dedupAfter] using scalar_mem, same_self scalar⟩
  | cons second rest ih =>
      rw [dedupAfter]
      split
      · rename_i same
        rcases List.mem_cons.mp scalar_mem with rfl | later
        · exact ih List.mem_cons_self
        · rcases List.mem_cons.mp later with rfl | later
          · rcases dedupAfter_head first rest with ⟨others, found⟩
            exact ⟨first, found ▸ List.mem_cons_self, same⟩
          · exact ih (List.mem_cons_of_mem first later)
      · rcases List.mem_cons.mp scalar_mem with rfl | later
        · exact ⟨scalar, List.mem_cons_self, same_self scalar⟩
        · rcases ih later with ⟨kept, kept_mem, same⟩
          exact ⟨kept, List.mem_cons_of_mem first kept_mem, same⟩

/-- Putting conjuncts in order keeps all of them, up to the bits of equal numbers. -/
theorem exists_same_ordered {scalar : Scalar} {scalars : List Scalar} (scalar_mem : scalar ∈ scalars) :
    ∃ kept ∈ ordered scalars, kept.same scalar = true := by
  rw [← mem_sortByText] at scalar_mem
  rw [ordered]
  cases sorted_eq : sortByText scalars with
  | nil =>
      rw [sorted_eq] at scalar_mem
      cases scalar_mem
  | cons first rest =>
      rw [sorted_eq] at scalar_mem
      exact exists_same_dedupAfter scalar_mem

theorem ordered_eq_nil_iff {scalars : List Scalar} : ordered scalars = [] ↔ scalars = [] := by
  constructor
  · intro empty
    rw [List.eq_nil_iff_forall_not_mem]
    intro scalar scalar_mem
    rcases exists_same_ordered scalar_mem with ⟨kept, kept_mem, -⟩
    simp [empty] at kept_mem
  · rintro rfl
    rfl

/-! ## Conjuncts of conjunctions -/

mutual

/-- A conjunct is no conjunction itself. -/
theorem ne_and_of_mem_conjuncts : (scalar : Scalar) → {conjunct : Scalar} →
    conjunct ∈ scalar.conjuncts → ∀ parts, conjunct ≠ .and parts
  | .and parts, _, conjunct_mem => ne_and_of_mem_conjunctsOf parts conjunct_mem
  | .column _, _, conjunct_mem | .outer _, _, conjunct_mem | .literal _, _, conjunct_mem
  | .binary .., _, conjunct_mem | .unary .., _, conjunct_mem | .call .., _, conjunct_mem
  | .or _, _, conjunct_mem => by
      simp_all [conjuncts]

theorem ne_and_of_mem_conjunctsOf : (scalars : List Scalar) → {conjunct : Scalar} →
    conjunct ∈ conjunctsOf scalars → ∀ parts, conjunct ≠ .and parts
  | scalar :: rest, _, conjunct_mem => by
      rcases List.mem_append.mp conjunct_mem with here | later
      · exact ne_and_of_mem_conjuncts scalar here
      · exact ne_and_of_mem_conjunctsOf rest later

end

theorem conjuncts_of_ne_and {scalar : Scalar} (atom : ∀ parts, scalar ≠ .and parts) :
    scalar.conjuncts = [scalar] := by
  cases scalar with
  | and parts => exact (atom parts rfl).elim
  | _ => rfl

theorem conjuncts_of_mem (scalar : Scalar) {conjunct : Scalar}
    (conjunct_mem : conjunct ∈ scalar.conjuncts) : conjunct.conjuncts = [conjunct] :=
  conjuncts_of_ne_and (ne_and_of_mem_conjuncts scalar conjunct_mem)

theorem conjunctsOf_eq_self {scalars : List Scalar}
    (atoms : ∀ scalar ∈ scalars, scalar.conjuncts = [scalar]) : conjunctsOf scalars = scalars := by
  induction scalars with
  | nil => rfl
  | cons first rest ih =>
      rw [conjunctsOf, atoms first List.mem_cons_self,
        ih fun other other_mem => atoms other (List.mem_cons_of_mem first other_mem)]
      rfl

/-- The conjuncts of a conjunction are its parts. The empty conjunction is truth. -/
theorem conjuncts_conjunction {scalars : List Scalar}
    (atoms : ∀ scalar ∈ scalars, scalar.conjuncts = [scalar]) :
    (conjunction scalars).conjuncts = if scalars = [] then [truth] else scalars := by
  rcases scalars with _ | ⟨first, _ | ⟨second, rest⟩⟩
  · rfl
  · exact atoms first List.mem_cons_self
  · simp [conjunction, conjuncts, conjunctsOf_eq_self atoms]

/-- The conjuncts of a canonical conjunction are the given ones in order. -/
theorem conjuncts_canonicalConjunction {scalars : List Scalar}
    (atoms : ∀ scalar ∈ scalars, scalar.conjuncts = [scalar]) :
    (canonicalConjunction scalars).conjuncts =
      if scalars = [] then [truth] else ordered scalars := by
  rw [canonicalConjunction, ← ordered,
    conjuncts_conjunction fun scalar scalar_mem => atoms scalar (mem_of_mem_ordered scalar_mem)]
  simp only [ordered_eq_nil_iff]

/-! ## The shape of canonical conditions -/

/--
What canonical order leaves: an expression that is no conjunction, or the conjunction of two or more such
expressions that are in the order of their texts and of which no two neighbours are the same.
-/
inductive Canonical : Scalar → Prop
  | single {scalar : Scalar} : (∀ parts, scalar ≠ .and parts) → Canonical scalar
  | several {parts : List Scalar} : 2 ≤ parts.length →
      (∀ part ∈ parts, ∀ nested, part ≠ .and nested) → Sorted parts → Distinct parts →
        Canonical (.and parts)

theorem shape_canonicalConjunction {scalars : List Scalar}
    (atoms : ∀ scalar ∈ scalars, scalar.conjuncts = [scalar]) :
    (canonicalConjunction scalars).Canonical := by
  have ordered_atoms : ∀ part ∈ ordered scalars, ∀ nested, part ≠ .and nested := by
    intro part part_mem
    have alone := atoms part (mem_of_mem_ordered part_mem)
    exact ne_and_of_mem_conjuncts part (alone ▸ List.mem_singleton_self part)
  have sorted := sorted_ordered scalars
  have distinct : Distinct (ordered scalars) := distinct_dedupAdjacent _
  rw [canonicalConjunction, ← ordered]
  generalize ordered scalars = parts at ordered_atoms sorted distinct ⊢
  rcases parts with _ | ⟨first, _ | ⟨second, rest⟩⟩
  · exact .single (by simp [conjunction, truth])
  · exact .single (ordered_atoms first List.mem_cons_self)
  · exact .several (Nat.le_add_left 2 rest.length) ordered_atoms sorted distinct

/-- A condition of canonical shape is left as it is. -/
theorem Canonical.canonical_eq {scalar : Scalar} (shape : scalar.Canonical) :
    scalar.canonical = scalar := by
  cases shape with
  | single atom =>
      rw [canonical, conjuncts_of_ne_and atom]
      rfl
  | @several parts two atoms sorted distinct =>
      rw [canonical, conjuncts, conjunctsOf_eq_self fun part part_mem =>
        conjuncts_of_ne_and (atoms part part_mem), canonicalConjunction, sorted.sortByText,
        distinct.dedupAdjacent]
      rcases parts with _ | ⟨first, _ | ⟨second, rest⟩⟩
      · cases two
      · simp at two
      · rfl

/-- Canonical order changes a condition once at most. -/
theorem canonical_canonicalConjunction {scalars : List Scalar}
    (atoms : ∀ scalar ∈ scalars, scalar.conjuncts = [scalar]) :
    (canonicalConjunction scalars).canonical = canonicalConjunction scalars :=
  (shape_canonicalConjunction atoms).canonical_eq

@[simp]
theorem canonical_canonical (scalar : Scalar) : scalar.canonical.canonical = scalar.canonical :=
  canonical_canonicalConjunction fun _ => conjuncts_of_mem scalar

/-- What holds of truth, of some scalars and of every conjunction of them holds of their canonical one. -/
theorem canonicalConjunction_induct {Holds : Scalar → Prop} {scalars : List Scalar}
    (each : ∀ scalar ∈ scalars, Holds scalar) (truth : Holds .truth)
    (and : ∀ {parts}, (∀ part ∈ parts, Holds part) → Holds (.and parts)) :
    Holds (canonicalConjunction scalars) := by
  have ordered_each : ∀ scalar ∈ ordered scalars, Holds scalar :=
    fun scalar scalar_mem => each scalar (mem_of_mem_ordered scalar_mem)
  rw [canonicalConjunction, ← ordered]
  generalize ordered scalars = parts at ordered_each
  rcases parts with _ | ⟨first, _ | ⟨second, rest⟩⟩
  · exact truth
  · exact ordered_each first List.mem_cons_self
  · exact and ordered_each

theorem hasOuterRefs_canonicalConjunction {scalars : List Scalar}
    (each : ∀ scalar ∈ scalars, scalar.hasOuterRefs = false) :
    (canonicalConjunction scalars).hasOuterRefs = false := by
  refine canonicalConjunction_induct each rfl fun parts_local => ?_
  rw [hasOuterRefs, anyOuterRefs_eq_any]
  simpa using parts_local

/-! ## Expressions without numbers -/

/-- No other expression is the same. -/
def Rigid (scalar : Scalar) : Prop :=
  ∀ other : Scalar, other.same scalar = true → other = scalar

theorem rigid_equality (leftTable leftColumn rightTable rightColumn : String) :
    (equality leftTable leftColumn rightTable rightColumn).Rigid := by
  intro other same
  rw [same_iff] at same
  cases other with
  | binary operator left right =>
      cases left <;> cases right <;> simp_all [equality, normal]
  | _ => simp [equality, normal] at same

theorem rigid_truth : truth.Rigid := by
  intro other same
  rw [same_iff] at same
  cases other with
  | literal value => cases value <;> simp_all [truth, normal, Literal.normal]
  | _ => simp [truth, normal] at same

theorem eq_of_normals_eq {parts others : List Scalar} (rigid : ∀ part ∈ parts, part.Rigid)
    (same : normals others = normals parts) : others = parts := by
  induction others generalizing parts with
  | nil =>
      cases parts with
      | nil => rfl
      | cons part parts => cases same
  | cons other others ih =>
      cases parts with
      | nil => cases same
      | cons part parts =>
          rcases List.cons.inj same with ⟨first_eq, rest_eq⟩
          rw [rigid part List.mem_cons_self other (same_iff.mpr first_eq),
            ih (fun part part_mem => rigid part (List.mem_cons_of_mem _ part_mem)) rest_eq]

theorem rigid_canonicalConjunction {scalars : List Scalar} (rigid : ∀ scalar ∈ scalars, scalar.Rigid) :
    (canonicalConjunction scalars).Rigid := by
  refine canonicalConjunction_induct rigid rigid_truth fun {parts} parts_rigid other same => ?_
  rw [same_iff] at same
  cases other with
  | and others =>
      rw [normal, normal] at same
      rw [eq_of_normals_eq parts_rigid (Scalar.and.inj same)]
  | _ => simp [normal] at same

/-! ## Conjuncts that their texts tell apart -/

/-- Expressions that are the same if their texts are. -/
def Discernible (scalars : List Scalar) : Prop :=
  ∀ first ∈ scalars, ∀ second ∈ scalars, first.text = second.text → first.same second = true

namespace Discernible

variable {scalars others : List Scalar}

theorem subset (discernible : Discernible scalars) (subset : others ⊆ scalars) :
    Discernible others :=
  fun first first_mem second second_mem =>
    discernible first (subset first_mem) second (subset second_mem)

theorem nodup_of_distinct (discernible : Discernible scalars) (sorted : Sorted scalars)
    (distinct : Distinct scalars) : scalars.Nodup := by
  induction scalars with
  | nil => exact List.nodup_nil
  | cons first rest ih =>
      have ⟨first_le, rest_sorted⟩ := List.pairwise_cons.mp sorted
      cases rest with
      | nil => simp
      | cons second rest =>
          refine List.nodup_cons.mpr
            ⟨?_, ih (discernible.subset (List.subset_cons_self _ _)) rest_sorted distinct.2⟩
          intro first_mem
          have second_le : Text.le second.text first.text = true := by
            rcases List.mem_cons.mp first_mem with rfl | later
            · exact Text.le_refl _
            · exact (List.pairwise_cons.mp rest_sorted).1 first later
          have same_text := Text.le_antisymm (first_le second List.mem_cons_self) second_le
          have same := discernible first (by simp) second (by simp) same_text
          have different := distinct.1
          rw [same] at different
          cases different

/-- In order, no expression is repeated if texts tell all of them apart. -/
theorem nodup_ordered (discernible : Discernible scalars) : (ordered scalars).Nodup :=
  (discernible.subset fun _ => mem_of_mem_ordered).nodup_of_distinct (sorted_ordered scalars)
    (distinct_dedupAdjacent _)

end Discernible

/-- Expressions without numbers that are different only if their texts are. -/
structure Legible (scalars : List Scalar) : Prop where
  plain : ∀ scalar ∈ scalars, scalar.normal = scalar
  told_apart : ∀ first ∈ scalars, ∀ second ∈ scalars, first.text = second.text → first = second

namespace Legible

variable {scalars others : List Scalar}

theorem subset (legible : Legible scalars) (subset : others ⊆ scalars) : Legible others where
  plain := fun scalar scalar_mem => legible.plain scalar (subset scalar_mem)
  told_apart := fun first first_mem second second_mem =>
    legible.told_apart first (subset first_mem) second (subset second_mem)

theorem discernible (legible : Legible scalars) : Discernible scalars := by
  intro first first_mem second second_mem same_text
  rw [legible.told_apart first first_mem second second_mem same_text]
  exact same_self second

theorem eq_of_same (legible : Legible scalars) {first second : Scalar} (first_mem : first ∈ scalars)
    (second_mem : second ∈ scalars) (same : first.same second = true) : first = second := by
  rw [same_iff, legible.plain first first_mem, legible.plain second second_mem] at same
  exact same

/-- Putting legible conjuncts in order loses none of them. -/
theorem mem_ordered (legible : Legible scalars) {scalar : Scalar} :
    scalar ∈ ordered scalars ↔ scalar ∈ scalars := by
  constructor
  · exact mem_of_mem_ordered
  · intro scalar_mem
    rcases exists_same_ordered scalar_mem with ⟨kept, kept_mem, same⟩
    exact legible.eq_of_same (mem_of_mem_ordered kept_mem) scalar_mem same ▸ kept_mem

theorem nodup_ordered (legible : Legible scalars) : (ordered scalars).Nodup :=
  Discernible.nodup_ordered legible.discernible

/-- The order of legible conjuncts depends on nothing but which of them there are. -/
theorem ordered_congr (legible : Legible scalars) (same : ∀ scalar, scalar ∈ scalars ↔ scalar ∈ others) :
    ordered scalars = ordered others := by
  have others_legible : Legible others := legible.subset fun scalar => (same scalar).mpr
  have perm : (ordered scalars).Perm (ordered others) := by
    rw [List.perm_ext_iff_of_nodup legible.nodup_ordered others_legible.nodup_ordered]
    intro scalar
    rw [legible.mem_ordered, others_legible.mem_ordered, same]
  refine List.Perm.eq_of_pairwise ?_ (sorted_ordered scalars) (sorted_ordered others) perm
  intro first second first_mem second_mem first_le second_le
  exact legible.told_apart first (mem_of_mem_ordered first_mem) second
    ((same second).mpr (mem_of_mem_ordered second_mem)) (Text.le_antisymm first_le second_le)

end Legible

end Scalar

namespace Operator

@[simp]
theorem canonical_canonical (operator : Operator) :
    operator.canonical.canonical = operator.canonical := by
  cases operator with
  | logical operator =>
      cases operator <;> simp [canonical, LogicalOperator.canonical]
  | physical operator =>
      cases operator <;> simp [canonical, PhysicalOperator.canonical]

end Operator

end Cascades
