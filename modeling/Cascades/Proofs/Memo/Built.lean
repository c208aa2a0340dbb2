import Cascades.Proofs.Memo.Insert

/-!
# Memos that can be built

Starting from nothing, expressions are stored with any origin, rules are recorded as applied and
groups as driven to a goal. Every memo that arises is consistent.
-/

namespace Cascades

namespace Memo

/-- A memo that arises from the empty one by the operations of a memo. -/
inductive Built : Memo → Prop
  | empty : Built empty
  | add {memo : Memo} (operator : Operator) (children : List GroupId) (origin : Option RuleId) :
      Built memo → Built (memo.add operator children origin).1
  | addTo {memo larger : Memo} {group : GroupId} {operator : Operator} {children : List GroupId}
      {origin : Option RuleId} {insertion : Insertion} : Built memo →
      memo.addTo group operator children origin = .ok (larger, insertion) → Built larger
  | markApplied {memo larger : Memo} {id : ExprId} {rule : RuleId} {isNew : Bool} : Built memo →
      memo.markApplied id rule = .ok (larger, isNew) → Built larger
  | sealGroup {memo larger : Memo} {id : GroupId} {goal : Goal} {seen : Nat} {isSealed : Bool} :
      Built memo → memo.sealGroup id goal seen = .ok (larger, isSealed) → Built larger

theorem consistent_empty : empty.Consistent where
  numbered := fun found => by simp [expression?, empty] at found
  housed := fun found => by simp [expression?, empty] at found
  logical := fun found => by simp [group?, empty] at found
  physical := fun found => by simp [group?, empty] at found
  canonical := fun found => by simp [expression?, empty] at found
  unique := fun found => by simp [expression?, empty] at found

theorem Consistent.add {memo : Memo} (consistent : memo.Consistent) (operator : Operator)
    (children : List GroupId) (origin : Option RuleId) :
    (memo.add operator children origin).1.Consistent := by
  rw [Memo.add]
  split
  · exact consistent
  · rename_i missing
    exact consistent.opened.push (by simp) (by simp) missing

theorem Consistent.addTo {memo larger : Memo} (consistent : memo.Consistent) {group : GroupId}
    {operator : Operator} {children : List GroupId} {origin : Option RuleId}
    {insertion : Insertion}
    (added : memo.addTo group operator children origin = .ok (larger, insertion)) :
    larger.Consistent := by
  rcases addTo_cases added with ⟨rfl, -⟩ | ⟨rfl, exists_, missing⟩
  · exact consistent
  · exact consistent.push exists_ (by simp) missing

/-- Every memo that can be built is consistent. -/
theorem Built.consistent {memo : Memo} (built : memo.Built) : memo.Consistent := by
  induction built with
  | empty => exact consistent_empty
  | add operator children origin _ ih => exact ih.add operator children origin
  | addTo _ added ih => exact ih.addTo added
  | markApplied _ marked ih =>
      rcases marked_of_markApplied ih marked with ⟨expression, found, rfl⟩
      exact ih.marked found
  | @sealGroup memo larger id goal seen isSealed _ marked ih =>
      cases found : memo.group? id with
      | none =>
          rw [Memo.sealGroup, Memo.group, found] at marked
          cases marked
      | some group =>
          rw [Memo.sealGroup, Memo.group, found] at marked
          simp only [bind, Except.bind, pure, Except.pure] at marked
          split at marked
          · cases marked
            exact ih
          · cases marked
            exact ih.flagged found

end Memo

end Cascades
