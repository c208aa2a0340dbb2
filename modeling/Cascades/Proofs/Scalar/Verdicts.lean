import Cascades.Proofs.Meaning.Conditions
import Cascades.Proofs.Scalar.Conjuncts

/-!
# Canonical order changes no meaning

The canonical form of a condition has the conjuncts of the condition, up to the bits of equal
numbers, in another order and without some of the repetitions. Whatever asks of a condition only
which conjuncts it has gets the same answer of both: its verdict under three-valued logic, whether it
has an equality or an outer column, and the columns in it. A condition without conjuncts becomes
truth, of which all of this is the same too.
-/

namespace Cascades

/-- A truth value of three-valued logic. -/
inductive Verdict where
  | no | unknown | yes
deriving DecidableEq

namespace Verdict

/-- The conjunction of two verdicts: the lesser one, in the order `no`, `unknown`, `yes`. -/
def and : Verdict → Verdict → Verdict
  | .no, _ | _, .no => .no
  | .unknown, _ | _, .unknown => .unknown
  | .yes, .yes => .yes

theorem and_assoc (first second third : Verdict) :
    (first.and second).and third = first.and (second.and third) := by
  cases first <;> cases second <;> cases third <;> rfl

@[simp]
theorem yes_and (verdict : Verdict) : yes.and verdict = verdict := by
  cases verdict <;> rfl

@[simp]
theorem and_yes (verdict : Verdict) : verdict.and .yes = verdict := by
  cases verdict <;> rfl

@[simp]
theorem and_eq_no_iff {first second : Verdict} :
    first.and second = .no ↔ first = .no ∨ second = .no := by
  cases first <;> cases second <;> decide

@[simp]
theorem and_eq_yes_iff {first second : Verdict} :
    first.and second = .yes ↔ first = .yes ∧ second = .yes := by
  cases first <;> cases second <;> decide

theorem eq_of_iff {first second : Verdict} (no_iff : first = .no ↔ second = .no)
    (yes_iff : first = .yes ↔ second = .yes) : first = second := by
  cases first <;> cases second <;> simp_all

end Verdict

namespace Scalar

/--
A verdict on every expression that is no conjunction. It does not tell expressions apart that are
the same, and finds truth to be true. What it says of conjunctions is of no consequence.
-/
structure Valuation where
  verdict : Scalar → Verdict
  verdict_same : ∀ {scalar other}, (∀ parts, scalar ≠ .and parts) → scalar.same other = true →
    verdict scalar = verdict other
  verdict_truth : verdict .truth = .yes

namespace Valuation

mutual

/-- The verdict on an expression, of a conjunction the one that follows from those on its parts. -/
def evaluate (valuation : Valuation) : Scalar → Verdict
  | .and parts => valuation.evaluateAll parts
  | scalar => valuation.verdict scalar

/-- The conjunction of the verdicts on a list. -/
def evaluateAll (valuation : Valuation) : List Scalar → Verdict
  | [] => .yes
  | scalar :: rest => (valuation.evaluate scalar).and (valuation.evaluateAll rest)

end

variable (valuation : Valuation)

theorem evaluate_of_ne_and {scalar : Scalar} (atom : ∀ parts, scalar ≠ .and parts) :
    valuation.evaluate scalar = valuation.verdict scalar := by
  cases scalar with
  | and parts => exact (atom parts rfl).elim
  | _ => rfl

theorem evaluateAll_truth : valuation.evaluateAll [truth] = .yes := by
  rw [evaluateAll, evaluateAll, Verdict.and_yes, evaluate_of_ne_and _ (by simp [truth])]
  exact valuation.verdict_truth

theorem evaluateAll_append (scalars others : List Scalar) :
    valuation.evaluateAll (scalars ++ others) =
      (valuation.evaluateAll scalars).and (valuation.evaluateAll others) := by
  induction scalars with
  | nil => simp [evaluateAll]
  | cons scalar rest ih => rw [List.cons_append, evaluateAll, evaluateAll, ih, Verdict.and_assoc]

mutual

/-- Nested conjunctions may be taken apart before the verdicts are combined. -/
theorem evaluate_eq : (scalar : Scalar) →
    valuation.evaluate scalar = valuation.evaluateAll scalar.conjuncts
  | .and parts => evaluateAll_eq parts
  | .column _ | .outer _ | .literal _ | .binary .. | .unary .. | .call .. | .or _ => by
      simp [conjuncts, evaluateAll]

theorem evaluateAll_eq : (scalars : List Scalar) →
    valuation.evaluateAll scalars = valuation.evaluateAll (conjunctsOf scalars)
  | [] => rfl
  | scalar :: rest => by
      rw [conjunctsOf, evaluateAll_append, ← evaluate_eq scalar, ← evaluateAll_eq rest, evaluateAll]

end

theorem evaluateAll_eq_no_iff {scalars : List Scalar} :
    valuation.evaluateAll scalars = .no ↔ ∃ scalar ∈ scalars, valuation.evaluate scalar = .no := by
  induction scalars with
  | nil => simp [evaluateAll]
  | cons scalar rest ih => simp [evaluateAll, ih]

theorem evaluateAll_eq_yes_iff {scalars : List Scalar} :
    valuation.evaluateAll scalars = .yes ↔ ∀ scalar ∈ scalars, valuation.evaluate scalar = .yes := by
  induction scalars with
  | nil => simp [evaluateAll]
  | cons scalar rest ih => simp [evaluateAll, ih]

end Valuation

/-! ## What expressions have in common that are the same -/

section Normal

theorem isEquality_normal (scalar : Scalar) : scalar.normal.isEquality = scalar.isEquality := by
  cases scalar with
  | binary operator left right => cases operator <;> cases left <;> cases right <;> rfl
  | _ => rfl

mutual

theorem columns_normal : (scalar : Scalar) → scalar.normal.columns = scalar.columns
  | .column _ | .outer _ | .literal _ => rfl
  | .binary _ left right => by rw [normal, columns, columns, columns_normal left, columns_normal right]
  | .unary _ operand => by rw [normal, columns, columns, columns_normal operand]
  | .call _ scalars | .and scalars | .or scalars => by
      rw [normal, columns, columns, columnsOf_normals scalars]

theorem columnsOf_normals : (scalars : List Scalar) → columnsOf (normals scalars) = columnsOf scalars
  | [] => rfl
  | scalar :: rest => by
      rw [normals, columnsOf, columnsOf, columns_normal scalar, columnsOf_normals rest]

end

mutual

theorem hasOuterRefs_normal : (scalar : Scalar) → scalar.normal.hasOuterRefs = scalar.hasOuterRefs
  | .column _ | .outer _ | .literal _ => rfl
  | .binary _ left right => by
      rw [normal, hasOuterRefs, hasOuterRefs, hasOuterRefs_normal left, hasOuterRefs_normal right]
  | .unary _ operand => by rw [normal, hasOuterRefs, hasOuterRefs, hasOuterRefs_normal operand]
  | .call _ scalars | .and scalars | .or scalars => by
      rw [normal, hasOuterRefs, hasOuterRefs, anyOuterRefs_normals scalars]

theorem anyOuterRefs_normals : (scalars : List Scalar) →
    anyOuterRefs (normals scalars) = anyOuterRefs scalars
  | [] => rfl
  | scalar :: rest => by
      rw [normals, anyOuterRefs, anyOuterRefs, hasOuterRefs_normal scalar, anyOuterRefs_normals rest]

end

end Normal

/-! ## Lists of the same expressions -/

namespace SameElements

variable {scalars others : List Scalar}

theorem ordered (scalars : List Scalar) : SameElements (ordered scalars) scalars := by
  intro scalar
  constructor
  · rintro ⟨kept, kept_mem, same⟩
    exact ⟨kept, mem_of_mem_ordered kept_mem, same⟩
  · rintro ⟨first, first_mem, same⟩
    rcases exists_same_ordered first_mem with ⟨kept, kept_mem, kept_same⟩
    exact ⟨kept, kept_mem, same_iff.mpr ((same_iff.mp kept_same).trans (same_iff.mp same))⟩

/-- What expressions have in common that are the same is had in both lists or in neither. -/
theorem exists_iff (same : SameElements scalars others) {property : Scalar → Prop}
    (shared : ∀ first ∈ scalars, ∀ second ∈ others, first.normal = second.normal →
      (property first ↔ property second)) :
    (∃ first ∈ scalars, property first) ↔ ∃ second ∈ others, property second := by
  constructor
  · rintro ⟨first, first_mem, holds⟩
    rcases (same first).mp ⟨first, first_mem, same_self first⟩ with ⟨second, second_mem, equal⟩
    exact ⟨second, second_mem,
      (shared first first_mem second second_mem (same_iff.mp equal).symm).mp holds⟩
  · rintro ⟨second, second_mem, holds⟩
    rcases (same second).mpr ⟨second, second_mem, same_self second⟩ with ⟨first, first_mem, equal⟩
    exact ⟨first, first_mem, (shared first first_mem second second_mem (same_iff.mp equal)).mpr holds⟩

theorem any_eq (same : SameElements scalars others) {test : Scalar → Bool}
    (test_normal : ∀ scalar, test scalar.normal = test scalar) :
    scalars.any test = others.any test := by
  rw [Bool.eq_iff_iff, List.any_eq_true, List.any_eq_true]
  refine same.exists_iff fun first _ second _ equal => ?_
  rw [← test_normal first, equal, test_normal]

theorem mem_columns_iff (same : SameElements scalars others) {column : ColumnRef} :
    column ∈ scalars.flatMap columns ↔ column ∈ others.flatMap columns := by
  rw [List.mem_flatMap, List.mem_flatMap]
  refine same.exists_iff fun first _ second _ equal => ?_
  rw [← columns_normal first, equal, columns_normal]

theorem evaluateAll_eq (same : SameElements scalars others)
    (atoms : ∀ scalar ∈ scalars ++ others, ∀ parts, scalar ≠ .and parts) (valuation : Valuation) :
    valuation.evaluateAll scalars = valuation.evaluateAll others := by
  have evaluate_eq (first : Scalar) (first_mem : first ∈ scalars) (second : Scalar)
      (second_mem : second ∈ others) (equal : first.normal = second.normal) :
      valuation.evaluate first = valuation.evaluate second := by
    have first_atom := atoms first (List.mem_append_left _ first_mem)
    rw [valuation.evaluate_of_ne_and first_atom,
      valuation.evaluate_of_ne_and (atoms second (List.mem_append_right _ second_mem))]
    exact valuation.verdict_same first_atom (same_iff.mpr equal)
  refine Verdict.eq_of_iff ?_ ?_
  · rw [valuation.evaluateAll_eq_no_iff, valuation.evaluateAll_eq_no_iff]
    refine same.exists_iff fun first first_mem second second_mem equal => ?_
    rw [evaluate_eq first first_mem second second_mem equal]
  · rw [valuation.evaluateAll_eq_yes_iff, valuation.evaluateAll_eq_yes_iff, ← not_iff_not]
    push Not
    refine same.exists_iff fun first first_mem second second_mem equal => ?_
    rw [evaluate_eq first first_mem second second_mem equal]

end SameElements

/-! ## Canonical conditions -/

theorem conjuncts_canonical (scalar : Scalar) :
    scalar.canonical.conjuncts =
      if scalar.conjuncts = [] then [truth] else ordered scalar.conjuncts :=
  conjuncts_canonicalConjunction fun _ => conjuncts_of_mem scalar

section Canonical

variable (scalar : Scalar)

theorem sameElements_canonical (some_conjunct : scalar.conjuncts ≠ []) :
    SameElements scalar.canonical.conjuncts scalar.conjuncts := by
  rw [conjuncts_canonical, if_neg some_conjunct]
  exact .ordered _

theorem conjuncts_canonical_of_eq_nil (empty : scalar.conjuncts = []) :
    scalar.canonical.conjuncts = [truth] := by
  rw [conjuncts_canonical, if_pos empty]

theorem evaluate_canonical (valuation : Valuation) :
    valuation.evaluate scalar.canonical = valuation.evaluate scalar := by
  rw [valuation.evaluate_eq, valuation.evaluate_eq scalar]
  by_cases empty : scalar.conjuncts = []
  · rw [conjuncts_canonical_of_eq_nil scalar empty, empty]
    exact valuation.evaluateAll_truth
  · refine (sameElements_canonical scalar empty).evaluateAll_eq ?_ valuation
    intro conjunct conjunct_mem
    rcases List.mem_append.mp conjunct_mem with here | here
    · exact ne_and_of_mem_conjuncts _ here
    · exact ne_and_of_mem_conjuncts _ here

theorem hasEquality_canonical : scalar.canonical.hasEquality = scalar.hasEquality := by
  rw [hasEquality, hasEquality]
  by_cases empty : scalar.conjuncts = []
  · rw [conjuncts_canonical_of_eq_nil scalar empty, empty]
    rfl
  · exact (sameElements_canonical scalar empty).any_eq isEquality_normal

theorem hasOuterRefs_canonical : scalar.canonical.hasOuterRefs = scalar.hasOuterRefs := by
  rw [hasOuterRefs_eq_any, hasOuterRefs_eq_any scalar]
  by_cases empty : scalar.conjuncts = []
  · rw [conjuncts_canonical_of_eq_nil scalar empty, empty]
    rfl
  · exact (sameElements_canonical scalar empty).any_eq hasOuterRefs_normal

theorem mem_columns_canonical {column : ColumnRef} :
    column ∈ scalar.canonical.columns ↔ column ∈ scalar.columns := by
  rw [columns_eq_flatMap, columns_eq_flatMap scalar]
  by_cases empty : scalar.conjuncts = []
  · rw [conjuncts_canonical_of_eq_nil scalar empty, empty]
    exact .rfl
  · exact (sameElements_canonical scalar empty).mem_columns_iff

end Canonical

end Scalar

theorem Operator.hasOuterRefs_canonical (operator : Operator) :
    operator.canonical.hasOuterRefs = operator.hasOuterRefs := by
  cases operator with
  | logical operator =>
      cases operator <;>
        simp [canonical, LogicalOperator.canonical, hasOuterRefs, scalars, LogicalOperator.scalars,
          Scalar.hasOuterRefs_canonical]
  | physical operator =>
      cases operator <;>
        simp [canonical, PhysicalOperator.canonical, hasOuterRefs, scalars, PhysicalOperator.scalars,
          Scalar.hasOuterRefs_canonical]

/--
Canonical order changes a condition once at most. It leaves no conjunction, or one of two or more parts
in the order of their texts none of which is a conjunction itself. The conjuncts are the same as before,
only that truth stands for no conjuncts at all. So no valuation tells the condition and its canonical
form apart, and they have the same columns and both or neither have an equality or an outer column. An
operator, whatever its condition, changes once at most as well, and keeps its kind and whether it has
outer columns.
-/
theorem canonical_keeps_meaning :
    (∀ scalar : Scalar,
      scalar.canonical.canonical = scalar.canonical ∧
      scalar.canonical.Canonical ∧
      (scalar.conjuncts = [] → scalar.canonical.conjuncts = [.truth]) ∧
      (scalar.conjuncts ≠ [] → Scalar.SameElements scalar.canonical.conjuncts scalar.conjuncts) ∧
      (∀ valuation : Scalar.Valuation,
        valuation.evaluate scalar.canonical = valuation.evaluate scalar) ∧
      scalar.canonical.hasEquality = scalar.hasEquality ∧
      scalar.canonical.hasOuterRefs = scalar.hasOuterRefs ∧
      ∀ column, column ∈ scalar.canonical.columns ↔ column ∈ scalar.columns) ∧
    ∀ operator : Operator,
      operator.canonical.canonical = operator.canonical ∧
      operator.canonical.kind = operator.kind ∧
      operator.canonical.hasOuterRefs = operator.hasOuterRefs := by
  refine ⟨fun scalar => ?_, fun operator => ?_⟩
  · exact ⟨scalar.canonical_canonical, Scalar.shape_canonicalConjunction fun _ => scalar.conjuncts_of_mem,
      scalar.conjuncts_canonical_of_eq_nil, scalar.sameElements_canonical,
      scalar.evaluate_canonical, scalar.hasEquality_canonical, scalar.hasOuterRefs_canonical,
      fun _ => scalar.mem_columns_canonical⟩
  · exact ⟨operator.canonical_canonical, operator.kind_canonical, operator.hasOuterRefs_canonical⟩

/-- The valuation that is certain of truth only. -/
def Scalar.Valuation.cautious : Valuation where
  verdict scalar := if scalar.normal = truth then .yes else .unknown
  verdict_same := by
    intro scalar other _ same
    rw [same_iff.mp same]
  verdict_truth := rfl

/-- Of a nested condition with repetitions and an empty part, two conjuncts are left. -/
theorem canonical_keeps_meaning_nested :
    let column (name : String) : Scalar := .column (.qualified "a" name)
    let condition : Scalar := .and [column "y", .and [], .and [column "x", .and [column "y"]]]
    condition.canonical = .and [column "x", column "y"] ∧
      Scalar.Valuation.cautious.evaluate condition.canonical = .unknown := by
  intro column condition
  refine ⟨by decide +kernel, ?_⟩
  rw [(canonical_keeps_meaning.1 condition).2.2.2.2.1 .cautious]
  decide +kernel

end Cascades
