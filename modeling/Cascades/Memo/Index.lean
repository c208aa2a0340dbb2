import Cascades.Memo.Insert

/-!
# An index of the shapes

Instead of searching its expressions for a shape that may be stored already, a memo can keep an index
of the shapes. A shape is looked up by its hash. Different shapes may have one hash, so a hash leads to
a bucket that holds all shapes of that hash. The hash is chosen when the memo is made.
-/

namespace Cascades

/-- A hash of operators with child groups that does not tell the same operators apart. -/
structure ShapeHash where
  code : Operator → List GroupId → UInt64
  agrees : ∀ {left right : Operator}, left.same right = true →
    ∀ children, code left children = code right children

/-- A shape in the index, and the expression that it leads to. -/
structure ShapeEntry where
  operator : Operator
  children : List GroupId
  id : ExprId

/-- A memo with the shapes of every hash, a later bucket of a hash in place of an earlier one. -/
structure IndexedMemo where
  memo : Memo
  buckets : List (UInt64 × List ShapeEntry)

namespace IndexedMemo

/-- The memo without groups. -/
def empty : IndexedMemo :=
  ⟨.empty, []⟩

/-- The shapes of a hash. -/
def bucket (indexed : IndexedMemo) (code : UInt64) : List ShapeEntry :=
  (indexed.buckets.lookup code).getD []

variable (hash : ShapeHash)

/-- The expression that a shape leads to. -/
def find? (indexed : IndexedMemo) (operator : Operator) (children : List GroupId) : Option ExprId :=
  ((indexed.bucket (hash.code operator children)).find? fun entry =>
    entry.children == children && entry.operator.same operator).map ShapeEntry.id

/-- Stores a new expression in an existing group, and enters its shape. -/
def push (indexed : IndexedMemo) (group : GroupId) (operator : Operator) (children : List GroupId)
    (origin : Option RuleId) : IndexedMemo :=
  let code := hash.code operator children
  let entry : ShapeEntry := ⟨operator, children, indexed.memo.expressions.size⟩
  ⟨indexed.memo.push group operator children origin,
    (code, indexed.bucket code ++ [entry]) :: indexed.buckets⟩

/-- Finds a shape, or stores it in a group of its own. -/
def add (indexed : IndexedMemo) (operator : Operator) (children : List GroupId)
    (origin : Option RuleId) : Checked (IndexedMemo × GroupId × ExprId) :=
  match indexed.find? hash operator.canonical children with
  | some id => (indexed.memo.expression id).map fun expression => (indexed, expression.group, expression.id)
  | none =>
      let group := indexed.memo.groups.size
      let opened := { indexed with memo.groups := indexed.memo.groups.push .empty }
      .ok (opened.push hash group operator.canonical children origin, group,
        indexed.memo.expressions.size)

/-- Finds a shape, or stores it in the given group. -/
def addTo (indexed : IndexedMemo) (group : GroupId) (operator : Operator) (children : List GroupId)
    (origin : Option RuleId) : Checked (IndexedMemo × Insertion) :=
  match indexed.find? hash operator.canonical children with
  | some id => (indexed.memo.expression id).map fun expression => (indexed,
      if expression.group = group then .duplicate expression.id
      else .elsewhere expression.id expression.group)
  | none =>
      if indexed.memo.holdsGroup group then
        .ok (indexed.push hash group operator.canonical children origin,
          .added indexed.memo.expressions.size)
      else .error (.group group)

end IndexedMemo

end Cascades
