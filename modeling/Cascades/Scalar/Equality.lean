import Cascades.Scalar.Basic

/-!
# Equality of scalar expressions

Two expressions are the same if they differ at most in the bits of equal numbers: `normal` replaces
every number by the representative of its value, and expressions are the same exactly if their
normal forms are equal.
-/

namespace Cascades

/-- The constant with the representative of its number. -/
def Literal.normal : Literal → Literal
  | .float64 value => .float64 value.normal
  | other => other

namespace Scalar

mutual

/-- The representative of all expressions that are the same. -/
def normal : Scalar → Scalar
  | .column reference => .column reference
  | .outer reference => .outer reference
  | .literal value => .literal value.normal
  | .binary operator left right => .binary operator left.normal right.normal
  | .unary operator operand => .unary operator operand.normal
  | .call name arguments => .call name (normals arguments)
  | .and parts => .and (normals parts)
  | .or parts => .or (normals parts)

/-- The representatives of the expressions of a list. -/
def normals : List Scalar → List Scalar
  | [] => []
  | scalar :: rest => scalar.normal :: normals rest

end

mutual

/-- Whether two expressions are equal, the bits of their numbers included. -/
def identical : Scalar → Scalar → Bool
  | .column left, .column right => left == right
  | .outer left, .outer right => left == right
  | .literal left, .literal right => left == right
  | .binary operator left right, .binary operator' left' right' =>
      operator == operator' && left.identical left' && right.identical right'
  | .unary operator operand, .unary operator' operand' =>
      operator == operator' && operand.identical operand'
  | .call name arguments, .call name' arguments' =>
      name == name' && allIdentical arguments arguments'
  | .and parts, .and parts' => allIdentical parts parts'
  | .or parts, .or parts' => allIdentical parts parts'
  | _, _ => false

/-- Whether two lists have identical expressions in the same places. -/
def allIdentical : List Scalar → List Scalar → Bool
  | [], [] => true
  | left :: lefts, right :: rights => left.identical right && allIdentical lefts rights
  | _, _ => false

end

mutual

theorem eq_of_identical : ∀ {left right : Scalar}, left.identical right = true → left = right
  | .column _, right, same => by cases right <;> simp_all [identical]
  | .outer _, right, same => by cases right <;> simp_all [identical]
  | .literal _, right, same => by cases right <;> simp_all [identical]
  | .binary _ left right, other, same => by
      cases other with
      | binary operator left' right' =>
          simp only [identical, Bool.and_eq_true, beq_iff_eq] at same
          rw [same.1.1, eq_of_identical same.1.2, eq_of_identical same.2]
      | _ => simp [identical] at same
  | .unary _ operand, other, same => by
      cases other with
      | unary operator operand' =>
          simp only [identical, Bool.and_eq_true, beq_iff_eq] at same
          rw [same.1, eq_of_identical same.2]
      | _ => simp [identical] at same
  | .call _ arguments, other, same => by
      cases other with
      | call name arguments' =>
          simp only [identical, Bool.and_eq_true, beq_iff_eq] at same
          rw [same.1, eq_of_allIdentical same.2]
      | _ => simp [identical] at same
  | .and parts, other, same => by
      cases other with
      | and parts' =>
          simp only [identical] at same
          rw [eq_of_allIdentical same]
      | _ => simp [identical] at same
  | .or parts, other, same => by
      cases other with
      | or parts' =>
          simp only [identical] at same
          rw [eq_of_allIdentical same]
      | _ => simp [identical] at same

theorem eq_of_allIdentical :
    ∀ {lefts rights : List Scalar}, allIdentical lefts rights = true → lefts = rights
  | [], rights, same => by cases rights <;> simp_all [allIdentical]
  | left :: lefts, rights, same => by
      cases rights with
      | nil => simp [allIdentical] at same
      | cons right rights =>
          simp only [allIdentical, Bool.and_eq_true] at same
          rw [eq_of_identical same.1, eq_of_allIdentical same.2]

end

mutual

theorem identical_self : ∀ scalar : Scalar, scalar.identical scalar = true
  | .column _ => by simp [identical]
  | .outer _ => by simp [identical]
  | .literal _ => by simp [identical]
  | .binary _ left right => by simp [identical, identical_self left, identical_self right]
  | .unary _ operand => by simp [identical, identical_self operand]
  | .call _ arguments => by simp [identical, allIdentical_self arguments]
  | .and parts => by simp [identical, allIdentical_self parts]
  | .or parts => by simp [identical, allIdentical_self parts]

theorem allIdentical_self : ∀ scalars : List Scalar, allIdentical scalars scalars = true
  | [] => rfl
  | scalar :: rest => by simp [allIdentical, identical_self scalar, allIdentical_self rest]

end

theorem identical_iff {left right : Scalar} : left.identical right = true ↔ left = right :=
  ⟨eq_of_identical, fun same => same ▸ identical_self left⟩

instance : DecidableEq Scalar := fun _ _ =>
  decidable_of_iff _ identical_iff

/-- Whether two expressions are the same up to the bits of equal numbers. -/
def same (left right : Scalar) : Bool :=
  left.normal.identical right.normal

theorem same_iff {left right : Scalar} : left.same right = true ↔ left.normal = right.normal :=
  identical_iff

@[simp]
theorem same_self (scalar : Scalar) : scalar.same scalar = true :=
  same_iff.mpr rfl

theorem normals_eq_map (scalars : List Scalar) : normals scalars = scalars.map normal := by
  induction scalars with
  | nil => rfl
  | cons scalar rest ih => simp [normals, ih]

end Scalar

end Cascades
