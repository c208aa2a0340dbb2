import Cascades.Proofs.Keys.Placement
import Cascades.Proofs.Search.Budget
import Cascades.Proofs.Search.Inputs
import Cascades.Proofs.Search.Joins

/-!
# Conditions that would grow without end

A group may hold one join twice, on some conjuncts and on these with others behind them that connect
other tables. If the group is joined with the same last input on the former conjuncts, associativity
passes the latter ones up, and it does so again with the join that results. Where putting conjuncts in
order never drops any of the repeated ones, each round is another expression. So no memo holds all of
them, and no search that leads to such a group succeeds. One that does starts from four tables, joined on
two conjuncts that read the same.
-/

namespace Cascades

open Rules (connects)

/-! ## Repeated conjuncts -/

namespace Scalar

/-- Some conjuncts, followed by a number of rounds of others. -/
def piled (pushed extra : List Scalar) (rounds : Nat) : List Scalar :=
  pushed ++ (List.replicate rounds extra).flatten

/-- Conjuncts without numbers that are in order, however often the latter ones are repeated. -/
structure Accumulates (pushed extra : List Scalar) : Prop where
  some_pushed : pushed ≠ []
  some_extra : extra ≠ []
  atoms : ∀ scalar ∈ pushed ++ extra, scalar.conjuncts = [scalar]
  rigid : ∀ scalar ∈ pushed ++ extra, scalar.Rigid
  local_ : ∀ scalar ∈ pushed ++ extra, scalar.hasOuterRefs = false
  in_order : ∀ rounds, ordered (piled pushed extra rounds) = piled pushed extra rounds

/-- The condition on these conjuncts. -/
def pile (pushed extra : List Scalar) (rounds : Nat) : Scalar :=
  canonicalConjunction (piled pushed extra rounds)

variable {pushed extra : List Scalar} {rounds : Nat}

theorem piled_zero : piled pushed extra 0 = pushed := by
  simp [piled]

theorem piled_succ :
    piled pushed extra (rounds + 1) = piled pushed extra 1 ++ (List.replicate rounds extra).flatten := by
  simp [piled, List.replicate_succ]

theorem mem_of_mem_rounds {scalar : Scalar} (scalar_mem : scalar ∈ (List.replicate rounds extra).flatten) :
    scalar ∈ extra := by
  rcases List.mem_flatten.mp scalar_mem with ⟨round, round_mem, scalar_mem⟩
  rwa [List.eq_of_mem_replicate round_mem] at scalar_mem

theorem piled_subset : piled pushed extra rounds ⊆ pushed ++ extra :=
  List.append_subset.mpr ⟨List.subset_append_left _ _, fun _ scalar_mem =>
    List.mem_append_right _ (mem_of_mem_rounds scalar_mem)⟩

theorem length_piled : (piled pushed extra rounds).length = pushed.length + rounds * extra.length := by
  simp [piled]

/-- Conjuncts that hold and others that do not are parted as they have been put together. -/
theorem filter_piled (rounds : Nat) {holds : Scalar → Bool}
    (pushed_hold : ∀ scalar ∈ pushed, holds scalar = true)
    (extra_fail : ∀ scalar ∈ extra, holds scalar = false) :
    (piled pushed extra rounds).filter holds = pushed ∧
      (piled pushed extra rounds).filter (not ∘ holds) = (List.replicate rounds extra).flatten := by
  have repeated_fail : ∀ scalar ∈ (List.replicate rounds extra).flatten, holds scalar = false :=
    fun scalar scalar_mem => extra_fail scalar (mem_of_mem_rounds scalar_mem)
  rw [piled, List.filter_append, List.filter_append, List.filter_eq_self.mpr pushed_hold]
  constructor
  · rw [List.filter_eq_nil_iff.mpr fun scalar scalar_mem => by simp [repeated_fail scalar scalar_mem],
      List.append_nil]
  · rw [List.filter_eq_nil_iff.mpr fun scalar scalar_mem => by simp [pushed_hold scalar scalar_mem],
      List.nil_append, List.filter_eq_self.mpr fun scalar scalar_mem => by
        simp [repeated_fail scalar scalar_mem]]

namespace Accumulates

variable (accumulates : Accumulates pushed extra)
include accumulates

theorem conjuncts_pile (rounds : Nat) : (pile pushed extra rounds).conjuncts = piled pushed extra rounds := by
  have some : piled pushed extra rounds ≠ [] := List.append_ne_nil_of_left_ne_nil accumulates.some_pushed _
  rw [pile, conjuncts_canonicalConjunction fun scalar scalar_mem =>
    accumulates.atoms scalar (piled_subset scalar_mem), if_neg some, accumulates.in_order]

theorem rigid_pile (rounds : Nat) : (pile pushed extra rounds).Rigid :=
  rigid_canonicalConjunction fun scalar scalar_mem => accumulates.rigid scalar (piled_subset scalar_mem)

theorem local_pile (rounds : Nat) : (pile pushed extra rounds).hasOuterRefs = false :=
  hasOuterRefs_canonicalConjunction fun scalar scalar_mem =>
    accumulates.local_ scalar (piled_subset scalar_mem)

/-- Different numbers of rounds are different conditions. -/
theorem pile_injective : Function.Injective (pile pushed extra) := by
  intro rounds others same
  have length_eq := congrArg (fun condition => condition.conjuncts.length) same
  simp only [accumulates.conjuncts_pile, length_piled, Nat.add_left_cancel_iff] at length_eq
  exact Nat.eq_of_mul_eq_mul_right (List.length_pos_iff.mpr accumulates.some_extra) length_eq

end Accumulates

/-- Neighbours in rounds of two different conjuncts are different. -/
theorem distinct_rounds {first second : Scalar} (different : first.same second = false)
    (turned : second.same first = false) {before : Scalar} (apart : before.same first = false)
    (rounds : Nat) : Distinct (before :: (List.replicate rounds [first, second]).flatten) := by
  induction rounds generalizing before with
  | zero => exact trivial
  | succ rounds ih =>
      rw [List.replicate_succ, List.flatten_cons]
      exact ⟨apart, different, ih turned⟩

/-- Two different conjuncts of one text are never brought together behind one that comes before them. -/
theorem accumulates_of_text_eq {before first second : Scalar}
    (each : ∀ scalar ∈ [before, first, second],
      scalar.conjuncts = [scalar] ∧ scalar.Rigid ∧ scalar.hasOuterRefs = false)
    (sorted : Text.le before.text first.text = true) (text_eq : first.text = second.text)
    (apart : before ≠ first) (different : first ≠ second) : Accumulates [before] [first, second] where
  some_pushed := List.cons_ne_nil _ _
  some_extra := List.cons_ne_nil _ _
  atoms := fun scalar scalar_mem => (each scalar scalar_mem).1
  rigid := fun scalar scalar_mem => (each scalar scalar_mem).2.1
  local_ := fun scalar scalar_mem => (each scalar scalar_mem).2.2
  in_order := by
    intro rounds
    have text_of_mem {scalar : Scalar}
        (scalar_mem : scalar ∈ (List.replicate rounds [first, second]).flatten) :
        scalar.text = first.text := by
      rcases List.mem_pair.mp (mem_of_mem_rounds scalar_mem) with rfl | rfl
      · rfl
      · exact text_eq.symm
    have in_order : Sorted (piled [before] [first, second] rounds) := by
      refine List.pairwise_cons.mpr ⟨fun scalar scalar_mem => ?_, ?_⟩
      · rw [text_of_mem scalar_mem]
        exact sorted
      · refine List.pairwise_of_forall_mem_list fun scalar scalar_mem other other_mem => ?_
        rw [text_of_mem scalar_mem, text_of_mem other_mem]
        exact Text.le_refl _
    have not_same {scalar other : Scalar} (other_mem : other ∈ [before, first, second])
        (ne : scalar ≠ other) : scalar.same other = false :=
      Bool.eq_false_iff.mpr fun same => ne ((each other other_mem).2.1 scalar same)
    have distinct : Distinct (piled [before] [first, second] rounds) :=
      distinct_rounds (not_same (by simp) different) (not_same (by simp) different.symm)
        (not_same (by simp) apart) rounds
    rw [ordered, in_order.sortByText, distinct.dedupAdjacent]

end Scalar

/-! ## Tables of weighed memos -/

namespace Weighed

variable {memo : Memo} {group : GroupId} {weight : GroupId → Multiset TableRef} {name : String}

/-- The tables that are found below a group are scanned below it. -/
theorem exists_of_mem_tablesBelow (weighed : Weighed weight memo)
    (name_mem : name ∈ memo.tablesBelow group) : ∃ table ∈ weight group, table.name = name := by
  let names (id : GroupId) : List String := (weight id).toList.map TableRef.name
  have least : memo.tablesBelow group ⊆ names group := by
    refine Memo.tablesBelow_least weighed.consistent ?_ group
    intro id expression operator stored operator_eq name name_mem
    have tables_eq := (weighed.balanced stored).tables
    rcases (Memo.mem_tablesOver operator_eq).mp name_mem with ⟨table, scanned, name_eq⟩ |
      ⟨input, input_mem, name_mem⟩
    · rw [Operator.scans, Expression.scanned?_operator scanned] at tables_eq
      simp [names, tables_eq, name_eq]
    · have input_le := weighed.child_le stored (Expression.mem_children_of_mem_tableInputs input_mem)
      rcases List.mem_map.mp name_mem with ⟨table, table_mem, name_eq⟩
      exact List.mem_map.mpr ⟨table, Multiset.mem_toList.mpr
        (Multiset.mem_of_le input_le (Multiset.mem_toList.mp table_mem)), name_eq⟩
  simpa [names] using least name_mem

/-- Below a group that scans a table there is no other one. -/
theorem eq_of_mem_tablesBelow (weighed : Weighed weight memo) {id : ExprId} {expression : Expression}
    (stored : memo.expression? id = some expression) {table : TableRef}
    (scanned : expression.scanned? = some table) (inputs_eq : expression.children = [])
    (name_mem : name ∈ memo.tablesBelow expression.group) : name = table.name := by
  rcases weighed.exists_of_mem_tablesBelow name_mem with ⟨other, other_mem, rfl⟩
  rw [(weighed.balanced stored).tables, inputs_eq, Operator.scans, Expression.scanned?_operator scanned,
    List.map_nil, List.sum_nil, add_zero, Multiset.mem_singleton] at other_mem
  rw [other_mem]

end Weighed

/-! ## Joins that are derived from themselves -/

namespace Memo

variable {memo : Memo} {catalog : Catalog} {group left last : GroupId} {pushed extra : List Scalar}

/--
A group holds a join on some conjuncts and again on these and others, and is itself joined on the former.
Only the former connect the inputs of the join.
-/
structure Refolds (memo : Memo) (group left last : GroupId) (pushed extra : List Scalar) : Prop where
  plain : memo.JoinsOn group (.pile pushed extra 0) left last
  laden : memo.JoinsOn group (.pile pushed extra 1) left last
  above : ∃ top, memo.JoinsOn top (.pile pushed extra 0) group last
  connected : ∀ scalar ∈ pushed, connects (memo.tablesBelow left) (memo.tablesBelow last) scalar = true
  apart : ∀ scalar ∈ extra, connects (memo.tablesBelow left) (memo.tablesBelow last) scalar = false

namespace Refolds

variable (saturating : memo.Saturating catalog)
  (explored : ∀ group < memo.groups.size, memo.Reached group .explore)
  (accumulates : Scalar.Accumulates pushed extra) (refolds : memo.Refolds group left last pushed extra)
include saturating explored accumulates refolds

/-- Each round gives the next one. -/
theorem next {top : GroupId} {rounds : Nat} (joins : memo.JoinsOn top (.pile pushed extra rounds) group last) :
    ∃ other, memo.JoinsOn other (.pile pushed extra (rounds + 1)) group last := by
  have parted := Scalar.filter_piled rounds refolds.connected refolds.apart
  have rigid : ∀ conjunct ∈ (Scalar.pile pushed extra 1).conjuncts ++
      (Scalar.pile pushed extra rounds).conjuncts, conjunct.Rigid := by
    rw [accumulates.conjuncts_pile, accumulates.conjuncts_pile]
    intro conjunct conjunct_mem
    rcases List.mem_append.mp conjunct_mem with here | there
    · exact accumulates.rigid conjunct (Scalar.piled_subset here)
    · exact accumulates.rigid conjunct (Scalar.piled_subset there)
  have associated := joins.associated saturating explored (.inr refolds.laden)
    (accumulates.local_pile rounds) (accumulates.local_pile 1) rigid
    (by rw [accumulates.conjuncts_pile, parted.1]; exact accumulates.some_pushed)
  rw [accumulates.conjuncts_pile, accumulates.conjuncts_pile, parted.1, parted.2,
    ← Scalar.piled_succ] at associated
  rcases associated with ⟨below, other, below_joins, other_joins⟩
  -- the join of the moved input is the plain one, so the group is an input again
  rw [← @Scalar.piled_zero pushed extra] at below_joins
  obtain rfl := refolds.plain.unique saturating.consistent below_joins
  exact other_joins.commuted saturating explored (accumulates.rigid_pile (rounds + 1))

/-- A memo has no room for all the rounds. -/
theorem elim : False := by
  have rounds (number : Nat) : ∃ top, memo.JoinsOn top (.pile pushed extra number) group last := by
    induction number with
    | zero => exact refolds.above
    | succ number ih =>
        rcases ih with ⟨top, joins⟩
        exact refolds.next saturating explored accumulates joins
  choose top expression expression_mem operator_eq _ using rounds
  have stored (number : Nat) : memo.expression? (expression number).id = some (expression number) :=
    ((mem_logicalIn saturating.consistent).mp (expression_mem number)).1
  let place (number : Nat) : Fin memo.expressions.size :=
    ⟨(expression number).id, lt_of_expression? (stored number)⟩
  have place_injective : Function.Injective place := by
    intro number other same
    have id_eq : (expression number).id = (expression other).id := congrArg Fin.val same
    have expression_eq : expression number = expression other := by
      rw [← Option.some_inj, ← stored, ← stored, id_eq]
    have condition_eq := operator_eq number
    rw [expression_eq, operator_eq other] at condition_eq
    exact accumulates.pile_injective (LogicalOperator.join.inj (Operator.logical.inj condition_eq)).2.symm
  exact not_injective_infinite_finite place place_injective

end Refolds

/-- A search that leads to such a group does not succeed. -/
theorem search_never_refolds {root : GroupId} {config : SearchConfig} {report : RunReport}
    (composed : memo.Composed) (rooted : memo.Rooted [root])
    (runs : memo.Runs .standard catalog config root report) (succeeded : report.outcome = .ok ())
    (accumulates : Scalar.Accumulates pushed extra) :
    ¬ report.memo.Refolds group left last pushed extra := by
  intro refolds
  have started : memo.Saturating catalog := composed.untouched.saturating composed.built.consistent
  have saturating := (search_keeps standard_discipline started runs).kept
  exact refolds.elim saturating (search_explores_all composed rooted runs succeeded) accumulates

/-! ## A memo with such a group -/

/-- The column `q.r` of `p` and a column of `b`. -/
def firstHomograph : Scalar :=
  .equality "p" "q.r" "b" "s"

/-- The column `r` of `p.q` and the same column of `b`. This conjunct has the text of the first one. -/
def secondHomograph : Scalar :=
  .equality "p.q" "r" "b" "s"

/-- A conjunct that is put before both of them. Only this one connects the table `c`. -/
def lastKey : Scalar :=
  .equality "b" "s" "c" "s"

/-- The table `c` is joined on all three conjuncts, and the result is joined with `c` on the last one again. -/
def homographs : Memo :=
  let scan (memo : Memo) (table : String) : Memo :=
    (memo.add (.logical (.scan ⟨"s", table⟩ [] none)) [] none).1
  let join (memo : Memo) (condition : Scalar) (left right : GroupId) : Memo :=
    (memo.add (.logical (.join .inner condition)) [left, right] none).1
  let scans := scan (scan (scan (scan empty "p") "b") "p.q") "c"
  let lower := join (join scans firstHomograph 0 1) secondHomograph 4 2
  join (join lower (.and [firstHomograph, secondHomograph, lastKey]) 5 3) lastKey 6 3

/-- A search of these joins that is cut off once it holds the lower one on the condition of the upper one. -/
def homographsCut :=
  tested (homographs.search .standard .empty ⟨132, none, false⟩ 7 false).toOption
    (fun report => decide (report.outcome ≠ .ok () ∧ ∃ expression ∈ report.memo.logicalIn 6,
      expression.operator = .logical (.join .inner (.pile [lastKey] [firstHomograph, secondHomograph] 0)) ∧
        expression.children = [5, 3])) (by decide +kernel)

theorem composed_homographs : homographs.Composed :=
  .add _ _ (.add _ _ (.add _ _ (.add _ _ (.add _ _ (.add _ _ (.add _ _ (.add _ _ .empty rfl (by simp))
    rfl (by simp)) rfl (by simp)) rfl (by simp)) rfl (by decide)) rfl (by decide))
    rfl (by decide)) rfl (by decide)

theorem rooted_homographs : homographs.Rooted [7] :=
  .of_mem (by decide)

theorem accumulates_homographs : Scalar.Accumulates [lastKey] [firstHomograph, secondHomograph] := by
  refine Scalar.accumulates_of_text_eq ?_ (by decide) (by decide) (by decide) (by decide)
  intro scalar scalar_mem
  simp only [List.mem_cons, List.not_mem_nil, or_false] at scalar_mem
  rcases scalar_mem with rfl | rfl | rfl
  all_goals exact ⟨rfl, Scalar.rigid_equality _ _ _ _, rfl⟩

theorem joins_homographs :
    homographs.JoinsOn 6 (.pile [lastKey] [firstHomograph, secondHomograph] 1) 5 3 ∧
      homographs.JoinsOn 7 (.pile [lastKey] [firstHomograph, secondHomograph] 0) 6 3 := by
  unfold JoinsOn
  constructor
  · decide
  · decide

theorem keeps_homographs {config : SearchConfig} {report : RunReport}
    (search_eq : homographs.search .standard .empty config 7 false = .ok report) :
    Keeps (Memo.Saturating .empty) homographs 7 config.goal report :=
  have started := composed_homographs.untouched.saturating composed_homographs.built.consistent
  search_keeps standard_discipline started (.inl ⟨false, search_eq⟩)

theorem tables_homographs : "b" ∈ homographs.tablesBelow 5 ∧ "c" ∈ homographs.tablesBelow 3 := by
  decide

section Full

variable {maxJobs : Nat} {report : RunReport}
  (search_eq : homographs.search .standard .empty ⟨maxJobs, none, false⟩ 7 false = .ok report)
include search_eq

theorem plain_homographs (succeeded : report.outcome = .ok ()) :
    report.memo.JoinsOn 6 (.pile [lastKey] [firstHomograph, secondHomograph] 0) 5 3 := by
  rcases homographsCut with ⟨cut, cut_eq, facts⟩
  rcases of_decide_eq_true facts with ⟨cut_failed, cut_joins⟩
  have cut_search := eq_ok_of_toOption cut_eq
  have grows := grows_of_search composed_homographs.built search_eq succeeded cut_search cut_failed
  exact JoinsOn.grows cut_joins (keeps_homographs cut_search).kept.consistent
    (keeps_homographs search_eq).kept.consistent grows

/-- Nothing but its own table is found below the last input, whatever the search has added. -/
theorem last_homographs {weight : GroupId → Multiset TableRef} (weighed : Weighed weight report.memo)
    {name : String} (name_mem : name ∈ report.memo.tablesBelow 3) : name = "c" := by
  rcases (keeps_homographs search_eq).grows.expressions (rfl : homographs.expression? 3 = some _) with
    ⟨applied, stored, -⟩
  exact weighed.eq_of_mem_tablesBelow stored rfl rfl name_mem

theorem refolds_homographs (succeeded : report.outcome = .ok ())
    {weight : GroupId → Multiset TableRef} (weighed : Weighed weight report.memo) :
    report.memo.Refolds 6 5 3 [lastKey] [firstHomograph, secondHomograph] := by
  have built := composed_homographs.built
  have grows := (keeps_homographs search_eq).grows
  have tables_subset := Within.tablesBelow_subset grows.within built.consistent weighed.consistent
  refine ⟨plain_homographs search_eq succeeded,
    joins_homographs.1.grows built.consistent weighed.consistent grows,
    ⟨7, joins_homographs.2.grows built.consistent weighed.consistent grows⟩, ?_, ?_⟩
  · intro scalar scalar_mem
    rw [List.mem_singleton.mp scalar_mem]
    have moved := tables_subset 5 tables_homographs.1
    have last := tables_subset 3 tables_homographs.2
    exact (Scalar.connects_equality rfl rfl).mpr ⟨.inl moved, .inr last, .inl moved, .inr last⟩
  · intro scalar scalar_mem
    refine Bool.eq_false_iff.mpr fun connected => ?_
    rcases List.mem_pair.mp scalar_mem with rfl | rfl
    all_goals
      rcases ((Scalar.connects_equality rfl rfl).mp connected).2.2.2 with found | found
      · exact absurd (last_homographs search_eq weighed found) (by decide)
      · exact absurd (last_homographs search_eq weighed found) (by decide)

end Full

end Memo

end Cascades
