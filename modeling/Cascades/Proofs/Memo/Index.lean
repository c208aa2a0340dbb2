import Cascades.Memo.Index
import Cascades.Proofs.Memo.Insertions

/-!
# The index of the shapes changes no answer

The bucket of a hash is searched for the shape itself, and the same shapes are in one bucket. So the index
leads to the expression that a search of all expressions finds, and to none where there is none. A memo
that finds its shapes by hash is therefore at all times the memo that searches its expressions, for every
choice of the hash.
-/

namespace Cascades

/-- A search of a memo with a new expression comes to that one last. -/
theorem Memo.find?_push (memo : Memo) (group : GroupId) (operator other : Operator)
    (children others : List GroupId) (origin : Option RuleId) :
    (memo.push group operator children origin).find? other others =
      (memo.find? other others).or
        (if children = others ∧ operator.same other = true then
          some ⟨memo.expressions.size, group, operator, children, origin, .empty⟩
        else none) := by
  rw [Memo.find?, Memo.push, Array.find?_push]
  simp [Memo.find?]

namespace IndexedMemo

variable {hash : ShapeHash} {indexed : IndexedMemo} {group : GroupId} {operator : Operator}
  {children : List GroupId} {origin : Option RuleId}

/-- The index leads to the expression that a search finds. -/
structure Faithful (hash : ShapeHash) (indexed : IndexedMemo) : Prop where
  consistent : indexed.memo.Consistent
  find?_eq : ∀ operator children,
    indexed.find? hash operator children = (indexed.memo.find? operator children).map Expression.id

theorem bucket_push (code : UInt64) :
    (indexed.push hash group operator children origin).bucket code =
      if code = hash.code operator children then
        indexed.bucket code ++ [⟨operator, children, indexed.memo.expressions.size⟩]
      else indexed.bucket code := by
  rw [bucket, push, List.lookup_cons]
  by_cases same : code = hash.code operator children
  · simp [same]
  · simp [same, beq_eq_false_iff_ne.mpr same, bucket]

/-- The index comes to a new shape last, too. -/
theorem find?_push (other : Operator) (others : List GroupId) :
    (indexed.push hash group operator children origin).find? hash other others =
      (indexed.find? hash other others).or
        (if children = others ∧ operator.same other = true then some indexed.memo.expressions.size
        else none) := by
  rw [find?, bucket_push, find?]
  by_cases same : children = others ∧ operator.same other = true
  · rcases same with ⟨rfl, same⟩
    rw [if_pos (hash.agrees same children).symm, List.find?_append, Option.map_or]
    simp [same]
  · have unfit : (children == others && operator.same other) = false := by simpa using same
    rw [if_neg same, Option.or_none]
    split
    · rw [List.find?_append]
      simp [unfit]
    · rfl

namespace Faithful

theorem empty : Faithful hash .empty where
  consistent := Memo.Built.empty.consistent
  find?_eq := by
    intro operator children
    rfl

theorem push (faithful : indexed.Faithful hash) (exists_ : group < indexed.memo.groups.size)
    (canonical : operator.canonical = operator)
    (missing : indexed.find? hash operator children = none) :
    (indexed.push hash group operator children origin).Faithful hash where
  consistent := by
    refine faithful.consistent.push exists_ canonical ?_
    rw [faithful.find?_eq, Option.map_eq_none_iff] at missing
    exact missing
  find?_eq := by
    intro other others
    change _ = ((indexed.memo.push group operator children origin).find? other others).map Expression.id
    rw [find?_push, Memo.find?_push, Option.map_or, faithful.find?_eq]
    split
    · rfl
    · rfl

theorem add (faithful : indexed.Faithful hash) (operator : Operator) (children : List GroupId)
    (origin : Option RuleId) :
    ∃ larger, indexed.add hash operator children origin =
        .ok (larger, (indexed.memo.add operator children origin).2) ∧
      larger.memo = (indexed.memo.add operator children origin).1 ∧ larger.Faithful hash := by
  have find?_eq := faithful.find?_eq operator.canonical children
  rw [IndexedMemo.add, Memo.add]
  cases found : indexed.memo.find? operator.canonical children with
  | some expression =>
      rw [found] at find?_eq
      have stored := faithful.consistent.find?_id found
      exact ⟨indexed, by simp [find?_eq, Memo.expression, stored]; rfl, rfl, faithful⟩
  | none =>
      rw [found] at find?_eq
      have opened : Faithful hash { indexed with memo := indexed.memo.opened } :=
        ⟨faithful.consistent.opened, faithful.find?_eq⟩
      refine ⟨_, by rw [find?_eq]; rfl, rfl, ?_⟩
      exact opened.push (by simp) operator.canonical_canonical find?_eq

theorem addTo (faithful : indexed.Faithful hash) (group : GroupId) (operator : Operator)
    (children : List GroupId) (origin : Option RuleId) :
    (indexed.addTo hash group operator children origin).map (Prod.map IndexedMemo.memo id) =
      indexed.memo.addTo group operator children origin ∧
    ∀ {larger insertion}, indexed.addTo hash group operator children origin = .ok (larger, insertion) →
      larger.Faithful hash := by
  have find?_eq := faithful.find?_eq operator.canonical children
  rw [IndexedMemo.addTo, Memo.addTo]
  cases found : indexed.memo.find? operator.canonical children with
  | some expression =>
      rw [found] at find?_eq
      have stored := faithful.consistent.find?_id found
      simp only [find?_eq, Option.map_some, Memo.expression, stored]
      refine ⟨?_, fun added => ?_⟩
      · change Except.ok (indexed.memo, if expression.group = group then Insertion.duplicate expression.id
          else .elsewhere expression.id expression.group) = _
        split
        · rfl
        · rfl
      · cases added
        exact faithful
  | none =>
      rw [found] at find?_eq
      simp only [find?_eq, Option.map_none]
      split
      · rename_i holds
        refine ⟨rfl, fun added => ?_⟩
        cases added
        exact faithful.push (by simpa [Memo.holdsGroup] using holds) operator.canonical_canonical find?_eq
      · exact ⟨rfl, fun added => by cases added⟩

end Faithful

/-! ## Histories -/

/-- An indexed memo that insertions lead to from the empty one. -/
inductive Inserted (hash : ShapeHash) : IndexedMemo → Prop
  | none : Inserted hash .empty
  | add {indexed larger : IndexedMemo} {operator : Operator} {children : List GroupId}
      {origin : Option RuleId} {place : GroupId × ExprId} : Inserted hash indexed →
      indexed.add hash operator children origin = .ok (larger, place) → Inserted hash larger
  | addTo {indexed larger : IndexedMemo} {group : GroupId} {operator : Operator}
      {children : List GroupId} {origin : Option RuleId} {insertion : Insertion} :
      Inserted hash indexed →
      indexed.addTo hash group operator children origin = .ok (larger, insertion) → Inserted hash larger

theorem Inserted.faithful (inserted : Inserted hash indexed) :
    indexed.Faithful hash ∧ Memo.empty.Inserted indexed.memo := by
  induction inserted with
  | none => exact ⟨.empty, .none⟩
  | @add indexed larger operator children origin place _ added ih =>
      rcases ih.1.add operator children origin with ⟨same, added_eq, memo_eq, faithful⟩
      cases added.symm.trans added_eq
      exact ⟨faithful, memo_eq ▸ ih.2.add operator children origin⟩
  | @addTo indexed larger group operator children origin insertion _ added ih =>
      rcases ih.1.addTo group operator children origin with ⟨same, faithful⟩
      rw [added] at same
      exact ⟨faithful added, ih.2.addTo same.symm⟩

/-- Every memo that insertions lead to has an index, whatever the hash. -/
theorem exists_of_inserted (hash : ShapeHash) {memo : Memo} (inserted : Memo.empty.Inserted memo) :
    ∃ indexed, Inserted hash indexed ∧ indexed.memo = memo := by
  induction inserted with
  | none => exact ⟨.empty, .none, rfl⟩
  | add operator children origin _ ih =>
      rcases ih with ⟨indexed, indexed_inserted, rfl⟩
      rcases indexed_inserted.faithful.1.add operator children origin with ⟨larger, added, memo_eq, -⟩
      exact ⟨larger, indexed_inserted.add added, memo_eq⟩
  | @addTo _ larger group operator children origin insertion _ added ih =>
      rcases ih with ⟨indexed, indexed_inserted, rfl⟩
      have same := (indexed_inserted.faithful.1.addTo group operator children origin).1
      rw [added] at same
      cases result : indexed.addTo hash group operator children origin with
      | error dangling =>
          rw [result] at same
          cases same
      | ok next =>
          rw [result] at same
          cases same
          exact ⟨next.1, indexed_inserted.addTo result, rfl⟩

/--
The index changes no answer. A memo that finds its shapes by hash is at all times the one that searches
its expressions, and it gives the same answers to every further insertion.
-/
theorem insertions_indexed (inserted : Inserted hash indexed) :
    Memo.empty.Inserted indexed.memo ∧
      (∀ operator children origin, (indexed.add hash operator children origin).map (Prod.map memo id) =
        .ok (indexed.memo.add operator children origin)) ∧
      ∀ group operator children origin,
        (indexed.addTo hash group operator children origin).map (Prod.map memo id) =
          indexed.memo.addTo group operator children origin := by
  rcases inserted.faithful with ⟨faithful, plain⟩
  refine ⟨plain, fun operator children origin => ?_, fun group operator children origin => ?_⟩
  · rcases faithful.add operator children origin with ⟨larger, added, memo_eq, -⟩
    rw [added]
    exact congrArg Except.ok (Prod.ext memo_eq rfl)
  · exact (faithful.addTo group operator children origin).1

end IndexedMemo

end Cascades
