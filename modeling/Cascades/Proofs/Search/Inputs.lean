import Cascades.Proofs.Search.Lineage

/-!
# Every group that a search opens is an input

The rules store a sub-plan in a group of its own only to read it from a result. So whatever a search
with the standard rules adds to a memo, every group but the root stays an input of some expression. As
groups descend, each of them has been reached from the root then, and a search that succeeds leaves no
group behind unexplored.
-/

namespace Cascades

namespace Memo

variable {memo larger : Memo} {group : GroupId} {operator : Operator} {children tops : List GroupId}
  {origin : Option RuleId}

/-- Some expression of the memo reads a group. -/
def Reads (memo : Memo) (group : GroupId) : Prop :=
  ∃ id expression, memo.expression? id = some expression ∧ group ∈ expression.children

/-- All groups but some at the top are read. -/
def Rooted (tops : List GroupId) (memo : Memo) : Prop :=
  ∀ group < memo.groups.size, group ∈ tops ∨ memo.Reads group

theorem Rooted.of_mem (reads : ∀ group < memo.groups.size, group ∈ tops ∨
    ∃ expression ∈ memo.expressions.toList, group ∈ expression.children) : memo.Rooted tops := by
  intro group group_lt
  refine (reads group group_lt).imp_right ?_
  rintro ⟨expression, expression_mem, group_mem⟩
  rcases List.mem_iff_getElem?.mp expression_mem with ⟨id, stored⟩
  exact ⟨id, expression, by rw [expression?, ← Array.getElem?_toList, stored], group_mem⟩

/-! ## Insertions -/

theorem reads_of_find? {expression : Expression}
    (found : memo.find? operator children = some expression) (child_mem : group ∈ children) :
    memo.Reads group := by
  rcases expression?_of_find? found with ⟨⟨id, stored⟩, rfl, -⟩
  exact ⟨id, expression, stored, child_mem⟩

theorem Reads.push (reads : memo.Reads group) {into : GroupId} :
    (memo.push into operator children origin).Reads group := by
  rcases reads with ⟨id, expression, stored, group_mem⟩
  exact ⟨id, expression, expression?_push_of_some stored, group_mem⟩

theorem reads_push {into : GroupId} (child_mem : group ∈ children) :
    (memo.push into operator children origin).Reads group :=
  ⟨memo.expressions.size, _, by rw [expression?_push, if_pos rfl], child_mem⟩

/-- What is read from now on need not be at the top any longer. -/
theorem Rooted.read (rooted : memo.Rooted (children ++ tops))
    (reads : ∀ child ∈ children, memo.Reads child) : memo.Rooted tops := by
  intro group group_lt
  rcases rooted group group_lt with at_top | read
  · exact (List.mem_append.mp at_top).symm.imp_right (reads group)
  · exact .inr read

theorem Rooted.mono (rooted : memo.Rooted tops) {wider : List GroupId} (subset : tops ⊆ wider) :
    memo.Rooted wider :=
  fun group group_lt => (rooted group group_lt).imp_left fun at_top => subset at_top

theorem Rooted.push (rooted : memo.Rooted (children ++ tops)) {into : GroupId} :
    (memo.push into operator children origin).Rooted tops := by
  have kept : (memo.push into operator children origin).Rooted (children ++ tops) := by
    intro group group_lt
    rw [size_groups_push] at group_lt
    exact (rooted group group_lt).imp_right fun read => read.push
  exact kept.read fun child => reads_push

theorem Rooted.add {made : GroupId} {id : ExprId} (rooted : memo.Rooted (children ++ tops))
    (added : memo.add operator children origin = (larger, made, id)) : larger.Rooted (made :: tops) := by
  rw [Memo.add] at added
  split at added
  · rename_i expression found
    cases added
    have kept := rooted.read fun child => reads_of_find? found
    exact kept.mono (List.subset_cons_self _ _)
  · cases added
    refine Rooted.push fun group group_lt => ?_
    rw [show ({ memo with groups := memo.groups.push .empty } : Memo) = memo.opened from rfl] at group_lt ⊢
    rw [size_groups_opened] at group_lt
    rcases Nat.lt_succ_iff_lt_or_eq.mp group_lt with old | rfl
    · exact (rooted group old).imp_left fun at_top => by
        rcases List.mem_append.mp at_top with child_mem | at_top
        · exact List.mem_append_left _ child_mem
        · exact List.mem_append_right _ (List.mem_cons_of_mem _ at_top)
    · exact .inl (List.mem_append_right _ List.mem_cons_self)

theorem Rooted.addTo {insertion : Insertion} (rooted : memo.Rooted (children ++ tops))
    (added : memo.addTo group operator children origin = .ok (larger, insertion)) :
    larger.Rooted tops := by
  rw [Memo.addTo] at added
  split at added
  · rename_i expression found
    have kept := rooted.read fun child => reads_of_find? found
    split at added
    · cases added
      exact kept
    · cases added
      exact kept
  · split at added
    · cases added
      exact rooted.push
    · cases added

end Memo

/-! ## Results -/

namespace RuleJob

variable {rule : RuleId} {memo larger : Memo} {tops : List GroupId}

mutual

/-- Storing a sub-plan puts its group at the top. -/
theorem store_rooted {memo : Memo} {tops : List GroupId} (rooted : memo.Rooted tops) :
    (plan : Subplan) → {larger : Memo} → {group : GroupId} →
      store rule memo plan = (larger, .ok group) → larger.Rooted (group :: tops)
  | .group id, larger, group, stored => by
      rw [store] at stored
      rw [← (Prod.mk.inj stored).1]
      exact rooted.mono (List.subset_cons_self _ _)
  | .fresh operator children, larger, group, stored => by
      rw [store] at stored
      split at stored
      · cases stored
      · rename_i middle groups stored_eq
        cases stored
        exact (storeAll_rooted rooted children stored_eq).add rfl

theorem storeAll_rooted {memo : Memo} {tops : List GroupId} (rooted : memo.Rooted tops) :
    (plans : List Subplan) → {larger : Memo} → {groups : List GroupId} →
      storeAll rule memo plans = (larger, .ok groups) → larger.Rooted (groups ++ tops)
  | [], larger, groups, stored => by
      rw [storeAll] at stored
      cases stored
      exact rooted
  | child :: rest, larger, groups, stored => by
      rw [storeAll] at stored
      split at stored
      · cases stored
      · rename_i middle group first_eq
        split at stored
        · cases stored
        · rename_i last others rest_eq
          cases stored
          have first := store_rooted rooted child first_eq
          refine (storeAll_rooted first rest rest_eq).mono ?_
          simp

end

theorem prepare_rooted (rooted : memo.Rooted tops) {result : RuleResult} {operator : Operator}
    {children : List GroupId} (prepared : prepare rule memo result = (larger, .ok (operator, children))) :
    larger.Rooted (children ++ tops) := by
  cases result with
  | substitution top groups =>
      rw [prepare] at prepared
      rw [← (Prod.mk.inj prepared).1]
      exact rooted.mono (List.subset_append_right _ _)
  | nested top plans =>
      rw [prepare] at prepared
      cases stored_eq : storeAll rule memo plans with
      | mk middle outcome =>
          rw [stored_eq] at prepared
          cases outcome with
          | error failure => cases prepared
          | ok groups =>
              cases prepared
              exact storeAll_rooted rooted plans stored_eq

/-- Results read the sub-plans that are stored for them. -/
theorem insertAll_rooted (rooted : memo.Rooted tops) {group : GroupId} {results : List RuleResult}
    {added total : Nat} (inserted : insertAll rule group memo added results = .ok (larger, total, .ok ())) :
    larger.Rooted tops := by
  induction results generalizing memo added with
  | nil =>
      cases inserted
      exact rooted
  | cons result rest ih =>
      rw [insertAll] at inserted
      split at inserted
      · cases inserted
      · rename_i middle operator children prepared
        simp only [bind, Except.bind] at inserted
        split at inserted
        · cases inserted
        · rename_i insertion added_eq
          exact ih ((prepare_rooted rooted prepared).addTo added_eq) inserted

end RuleJob

/-! ## Searches -/

namespace Memo

variable {memo larger : Memo} {group : GroupId} {tops : List GroupId}

theorem Reads.grows (reads : memo.Reads group) (grows : memo.Grows larger) : larger.Reads group := by
  rcases reads with ⟨id, expression, stored, group_mem⟩
  rcases grows.expressions stored with ⟨applied, kept, -⟩
  exact ⟨id, _, kept, group_mem⟩

/-- Marks and flags open no group. -/
theorem Rooted.grows (rooted : memo.Rooted tops) (grows : memo.Grows larger)
    (size_eq : larger.groups.size = memo.groups.size) : larger.Rooted tops :=
  fun group group_lt => (rooted group (size_eq ▸ group_lt)).imp_right fun read => read.grows grows

variable {ground : Ground} {catalog : Catalog} {config : SearchConfig} {root : GroupId}
  {report : RunReport}

theorem rooted_discipline {top : Goal} : Discipline (context .standard catalog config) top
    (fun memo => memo.Governed ground catalog ∧ memo.Rooted tops) (Finished catalog) := by
  refine (governed_discipline ground).and ?_ ?_
  · intro goal rule id expression outcome progress after governed rooted _ _ _ step_eq _ _
    rcases governed.descends with ⟨weight, descends⟩
    have consistent := governed.built.consistent
    rcases RuleJob.step_stores rfl descends step_eq with
      ⟨target, stored, same | ⟨results, total, -, inserted, -⟩⟩
    · exact same ▸ rooted.grows (extends_marked consistent stored).grows rfl
    · exact RuleJob.insertAll_rooted (rooted.grows (extends_marked consistent stored).grows rfl) inserted
  · intro memo id goal group _ rooted found
    exact rooted.grows (extends_flagged found).grows (by simp [Memo.flagged])

/-- Where all groups but the root are read, exploring the root explores all of them. -/
theorem Governed.explored (governed : memo.Governed ground catalog) (rooted : memo.Rooted [root])
    (root_explored : memo.Reached root .explore) (group_lt : group < memo.groups.size) :
    memo.Reached group .explore := by
  rcases governed.descends with ⟨weight, descends⟩
  have saturating := governed.saturating
  -- the induction goes up from a group to one that reads it, as long as grades can rise
  induction lacks : ground.step * (ground.tables + 1) - ground.grade weight group
    using Nat.strongRecOn generalizing group with
  | ind lacking ih =>
      rcases rooted group group_lt with at_top | ⟨id, expression, stored, group_mem⟩
      · exact List.mem_singleton.mp at_top ▸ root_explored
      · have own : memo.expression? expression.id = some expression :=
          (saturating.consistent.numbered stored).symm ▸ stored
        have above_lt := saturating.consistent.group_lt stored
        have higher := (descends.placed stored).lower group group_mem
        have bounded : ground.grade weight expression.group < ground.step * (ground.tables + 1) :=
          ground.grade_lt (Nat.lt_succ_of_le (descends.scanning above_lt).2)
        have above_explored := ih _ (by omega) above_lt rfl
        exact saturating.inputs_explored own above_explored group group_mem

/--
A successful search on a memo that is built bottom-up explores every group that it leaves behind, if its
root is the only group that no other one reads.
-/
theorem search_explores_all (composed : memo.Composed) (rooted : memo.Rooted [root])
    (runs : memo.Runs .standard catalog config root report) (succeeded : report.outcome = .ok ()) :
    ∀ group < report.memo.groups.size, report.memo.Reached group .explore := by
  rcases composed.governed with ⟨tables, governed⟩
  have keeps := search_keeps rooted_discipline ⟨governed catalog, rooted⟩ runs
  rcases keeps.kept with ⟨report_governed, report_rooted⟩
  have root_explored := report_governed.saturating.explored (keeps.reached succeeded)
  exact fun group group_lt => report_governed.explored report_rooted root_explored group_lt

end Memo

end Cascades
