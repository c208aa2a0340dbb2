import Cascades.Proofs.PlanSpace.Plans
import Cascades.Proofs.Rules.Balance
import Cascades.Proofs.Search.Cycles
import Cascades.Proofs.Search.Flags

/-!
# No search loses or repeats a table

A memo that is built bottom-up from logical operators has one plan below each of its groups. However
many searches with the standard rules follow, and however they end, all trees of expressions that can
be chosen below a group scan the same tables, those of the plan that the group started with.
-/

namespace Cascades

open Relation

namespace Plan

mutual

/-- The tables that a plan scans. -/
def scanned : Plan → Multiset TableRef
  | .node _ _ operator children => operator.scans + scannedBy children

/-- The tables that the plans of a list scan, each as often as it is scanned. -/
def scannedBy : List Plan → Multiset TableRef
  | [] => 0
  | plan :: rest => plan.scanned + scannedBy rest

end

end Plan

namespace Memo

mutual

/-- A tree of expressions of either kind that starts in a group. -/
def IsMixture (memo : Memo) (group : GroupId) : Plan → Prop
  | .node home id operator children =>
      home = group ∧ ∃ expression, memo.expression? id = some expression ∧ expression.group = group ∧
        expression.operator = operator ∧ AreMixtures memo expression.children children

/-- The plans of a list are mixtures below the groups of another one. -/
def AreMixtures (memo : Memo) : List GroupId → List Plan → Prop
  | [], [] => True
  | group :: groups, plan :: plans => IsMixture memo group plan ∧ AreMixtures memo groups plans
  | _, _ => False

end

/--
A memo that is built bottom-up: logical operators are added over groups that are there already, as many
as they have inputs.
-/
inductive Composed : Memo → Prop
  | empty : Composed empty
  | add {memo : Memo} (operator : LogicalOperator) (children : List GroupId) : Composed memo →
      children.length = operator.arity → (∀ child ∈ children, child < memo.groups.size) →
        Composed (memo.add (.logical operator) children none).1

end Memo

/-! ## The tables of a plan -/

section Mixtures

variable {memo : Memo} {kind : PlanKind}

mutual

theorem Memo.isMixture (consistent : memo.Consistent) : (plan : Plan) → {group : GroupId} →
    memo.IsPlan kind group plan → memo.IsMixture group plan
  | .node _ _ _ children, _, ⟨home_eq, id_mem, expression, stored, operator_eq, plans⟩ => by
      rcases consistent.stored_of_mem id_mem with ⟨found, found_stored, group_eq⟩
      cases stored.symm.trans found_stored
      exact ⟨home_eq, expression, stored, group_eq, operator_eq,
        areMixtures consistent children plans⟩

theorem Memo.areMixtures (consistent : memo.Consistent) : (plans : List Plan) →
    {groups : List GroupId} → memo.ArePlans kind groups plans → memo.AreMixtures groups plans
  | [], [], _ => trivial
  | plan :: rest, _ :: _, ⟨first, others⟩ =>
      ⟨isMixture consistent plan first, areMixtures consistent rest others⟩

end

namespace Weighed

variable {weight : GroupId → Multiset TableRef}

mutual

/-- Whatever is chosen below a group scans the tables that the group weighs. -/
theorem scanned_eq (weighed : Weighed weight memo) : (plan : Plan) → {group : GroupId} →
    memo.IsMixture group plan → plan.scanned = weight group
  | .node _ _ _ children, _, ⟨_, expression, stored, group_eq, operator_eq, mixtures⟩ => by
      rw [Plan.scanned, scannedBy_eq weighed children mixtures, ← group_eq, ← operator_eq,
        (weighed.balanced stored).tables]

theorem scannedBy_eq (weighed : Weighed weight memo) : (plans : List Plan) →
    {groups : List GroupId} → memo.AreMixtures groups plans →
      Plan.scannedBy plans = (groups.map weight).sum
  | [], [], _ => rfl
  | plan :: rest, _ :: _, ⟨first, others⟩ => by
      rw [Plan.scannedBy, scanned_eq weighed plan first, scannedBy_eq weighed rest others,
        List.map_cons, List.sum_cons]

end

end Weighed

end Mixtures

/-! ## Memos that are built bottom-up -/

namespace Memo

/-- A memo and a larger one that has new expressions in new groups only. -/
structure Deepens (memo larger : Memo) : Prop where
  consistent : memo.Consistent
  closed : memo.Closed
  larger_consistent : larger.Consistent
  same : ∀ {id expression}, expression.group < memo.groups.size →
    (larger.expression? id = some expression ↔ memo.expression? id = some expression)

namespace Deepens

variable {memo larger : Memo} {kind : PlanKind}

mutual

theorem isPlan_iff (deepens : memo.Deepens larger) : (plan : Plan) → {group : GroupId} →
    group < memo.groups.size → (larger.IsPlan kind group plan ↔ memo.IsPlan kind group plan)
  | .node home id operator children, group, group_lt => by
      have known {expression : Expression} (group_eq : expression.group = group) :=
        @deepens.same id expression (group_eq ▸ group_lt)
      rw [IsPlan, IsPlan, deepens.larger_consistent.mem_members, deepens.consistent.mem_members]
      refine and_congr_right fun _ => ?_
      constructor
      · rintro ⟨⟨found, stored, group_eq, kind_eq⟩, other, other_stored, operator_eq, plans⟩
        cases stored.symm.trans other_stored
        have before := (known group_eq).mp stored
        exact ⟨⟨found, before, group_eq, kind_eq⟩, found, before, operator_eq,
          (arePlans_iff deepens children (deepens.closed before)).mp plans⟩
      · rintro ⟨⟨found, stored, group_eq, kind_eq⟩, other, other_stored, operator_eq, plans⟩
        cases stored.symm.trans other_stored
        have after := (known group_eq).mpr stored
        exact ⟨⟨found, after, group_eq, kind_eq⟩, found, after, operator_eq,
          (arePlans_iff deepens children (deepens.closed stored)).mpr plans⟩

theorem arePlans_iff (deepens : memo.Deepens larger) : (plans : List Plan) →
    {groups : List GroupId} → (∀ group ∈ groups, group < memo.groups.size) →
      (larger.ArePlans kind groups plans ↔ memo.ArePlans kind groups plans)
  | [], [], _ => Iff.rfl
  | [], _ :: _, _ => Iff.rfl
  | _ :: _, [], _ => Iff.rfl
  | plan :: rest, _ :: _, exist => by
      rcases List.forall_mem_cons.mp exist with ⟨first, others⟩
      exact and_congr (isPlan_iff deepens plan first) (arePlans_iff deepens rest others)

end

end Deepens

/-- Every group has a single logical plan. -/
def Single (memo : Memo) : Prop :=
  ∀ root < memo.groups.size, ∃ input, memo.plans .logical root = {input}

variable {memo : Memo} {children : List GroupId}

theorem Single.arePlans (single : memo.Single) (exist : ∀ child ∈ children, child < memo.groups.size) :
    ∃ inputs, ∀ plans, memo.ArePlans .logical children plans ↔ plans = inputs := by
  induction children with
  | nil => exact ⟨[], fun plans => arePlans_nil⟩
  | cons child rest ih =>
      rcases List.forall_mem_cons.mp exist with ⟨first, others⟩
      rcases single child first with ⟨input, input_eq⟩
      rcases ih others with ⟨inputs, inputs_eq⟩
      have only (plan : Plan) : memo.IsPlan .logical child plan ↔ plan = input := by
        rw [← Set.mem_singleton_iff, ← input_eq]
        rfl
      refine ⟨input :: inputs, fun plans => ?_⟩
      cases plans with
      | nil => simp [ArePlans]
      | cons plan plans => rw [ArePlans, only, inputs_eq, List.cons.injEq]

/-- An operator over groups with a single plan has a single plan. -/
theorem Single.pushed (single : memo.Single) (consistent : memo.Consistent) (closed : memo.Closed)
    (exist : ∀ child ∈ children, child < memo.groups.size) {top : Operator}
    (canonical : top.canonical = top) (logical : top.isLogical = true)
    (missing : memo.find? top children = none) :
    (memo.opened.push memo.groups.size top children none).Single := by
  have made {id : ExprId} {expression : Expression}
      (stored : (memo.opened.push memo.groups.size top children none).expression? id =
        some expression) : memo.expression? id = some expression ∨
          expression = ⟨memo.expressions.size, memo.groups.size, top, children, none, .empty⟩ ∧
            id = memo.expressions.size := by
    rw [expression?_push] at stored
    split at stored
    · rename_i new
      exact .inr ⟨(Option.some.inj stored).symm, new⟩
    · exact .inl stored
  have deepens : memo.Deepens (memo.opened.push memo.groups.size top children none) := by
    refine ⟨consistent, closed, consistent.opened.push (by simp) canonical missing, ?_⟩
    intro id expression group_lt
    constructor
    · intro stored
      rcases made stored with before | ⟨rfl, -⟩
      · exact before
      · exact (Nat.lt_irrefl _ group_lt).elim
    · exact fun stored => expression?_push_of_some stored
  intro root root_lt
  rcases Nat.lt_succ_iff_lt_or_eq.mp (by simpa using root_lt) with old | rfl
  · rcases single root old with ⟨input, input_eq⟩
    refine ⟨input, ?_⟩
    rw [← input_eq]
    ext plan
    exact deepens.isPlan_iff plan old
  · rcases single.arePlans exist with ⟨inputs, inputs_eq⟩
    refine ⟨.node memo.groups.size memo.expressions.size top inputs, ?_⟩
    ext plan
    rcases plan with ⟨home, id, operator, plans⟩
    constructor
    · rintro ⟨home_eq, id_mem, found, stored, operator_eq, arePlans⟩
      rcases deepens.larger_consistent.stored_of_mem id_mem with ⟨other, other_stored, group_eq⟩
      cases stored.symm.trans other_stored
      rcases made stored with before | ⟨rfl, id_eq⟩
      · exact (Nat.ne_of_lt (consistent.group_lt before) group_eq).elim
      · rw [deepens.arePlans_iff plans exist, inputs_eq] at arePlans
        subst home_eq id_eq operator_eq arePlans
        rfl
    · intro same
      cases same
      have stored : (memo.opened.push memo.groups.size top children none).expression?
          memo.expressions.size =
            some ⟨memo.expressions.size, memo.groups.size, top, children, none, .empty⟩ := by
        rw [expression?_push]
        exact if_pos rfl
      exact ⟨rfl, deepens.larger_consistent.mem_members.mpr
        ⟨_, stored, rfl, by simp [Operator.planKind, logical]⟩, _,
        stored, rfl, (deepens.arePlans_iff inputs exist).mpr ((inputs_eq inputs).mpr rfl)⟩

theorem Single.add (single : memo.Single) (consistent : memo.Consistent) (closed : memo.Closed)
    (exist : ∀ child ∈ children, child < memo.groups.size) (operator : LogicalOperator) :
    (memo.add (.logical operator) children none).1.Single := by
  rw [Memo.add]
  cases missing : memo.find? (Operator.logical operator).canonical children with
  | some expression => exact single
  | none => exact single.pushed consistent closed exist (by simp) rfl missing

/-- A memo that is built bottom-up is balanced, and every group has a single plan. -/
theorem Composed.weighed (composed : memo.Composed) : ∃ weight, Weighed weight memo ∧ memo.Single := by
  induction composed with
  | empty =>
      refine ⟨fun _ => 0, ⟨Built.empty.consistent, ?_, ?_⟩, ?_⟩
      · exact fun stored => by cases stored
      · exact fun stored => by cases stored
      · exact fun root root_lt => (Nat.not_lt_zero root root_lt).elim
  | add operator children _ arity exist ih =>
      rcases ih with ⟨weight, weighed, single⟩
      have single_added := single.add weighed.consistent weighed.closed exist operator
      rcases @Reweighed.add _ _ (.logical operator) _ weighed none exist arity with
        ⟨next, group, id, wider, added_eq, reweighed, -⟩
      rw [added_eq] at single_added ⊢
      exact ⟨wider, reweighed.weighed, single_added⟩

end Memo

/-! ## Searches -/

section Searches

variable {weight : GroupId → Multiset TableRef} {start : Memo}

/-- What a search keeps of a memo with given weights. -/
def Conserves (weight : GroupId → Multiset TableRef) (start memo : Memo) : Prop :=
  ∃ wider, Reweighed weight start wider memo

namespace Conserves

variable {memo : Memo} (conserves : Conserves weight start memo)
include conserves

theorem marked {left : Memo} {target : ExprId} {rule : RuleId} {isNew : Bool}
    (marked_eq : memo.markApplied target rule = .ok (left, isNew)) : Conserves weight start left := by
  rcases conserves with ⟨wider, reweighed⟩
  rcases Memo.marked_of_markApplied reweighed.weighed.consistent marked_eq with
    ⟨expression, stored, rfl⟩
  exact ⟨wider, by simpa [Memo.marked] using reweighed.size_le, reweighed.agrees,
    reweighed.weighed.marked stored rule⟩

theorem flagged {id : GroupId} {group : Group} (goal : Goal) (found : memo.group? id = some group) :
    Conserves weight start (memo.flagged id group goal) := by
  rcases conserves with ⟨wider, reweighed⟩
  exact ⟨wider, by simpa [Memo.flagged] using reweighed.size_le, reweighed.agrees,
    reweighed.weighed.flagged found goal⟩

end Conserves

theorem RuleJob.step_conserves {job : RuleJob} {context : Context} {progress after : Progress}
    {outcome : Except Failure Step} (standard : context.rules = .standard)
    (conserves : Conserves weight start progress.memo)
    (step_eq : job.step context progress = .ok (after, outcome)) :
    Conserves weight start after.memo := by
  rcases marks_of_step step_eq with ⟨-, marked, isNew, marked_eq, same | ⟨applied, expression,
    application, results, added, stored_outcome, lookup_eq, stored, apply_eq, results_eq, inserted⟩⟩
  · exact same ▸ conserves.marked marked_eq
  · -- the results balance with the weights of the marked memo, which may have grown since the start
    rcases conserves.marked marked_eq with ⟨wider, reweighed⟩
    rw [standard] at lookup_eq
    rcases Rulebook.mem_numbered lookup_eq with ⟨number, pair_mem⟩
    have own : marked.expression? expression.id = some expression :=
      (reweighed.weighed.consistent.numbered stored) ▸ stored
    rcases reweighed.weighed.applies own pair_mem with ⟨given, given_eq, balance⟩
    cases apply_eq.symm.trans given_eq
    cases results_eq
    rcases reweighed.weighed.insertAll job.rule (reweighed.weighed.consistent.group_lt stored) balance
      0 with ⟨larger, total, widest, inserted_eq, later⟩
    cases inserted.symm.trans inserted_eq
    exact ⟨widest, reweighed.trans later⟩

namespace Situation

variable {source : Option String} {situation later : Situation}

theorem conserves_of_leads (conserves : Conserves weight start situation.memo)
    (leads : Leads .standard source situation later) : Conserves weight start later.memo := by
  have advances {state : RunState} {record : Option StepRecord}
      (advance_eq : situation.state.advance (situation.context .standard source) =
        .ok (state, record)) : Conserves weight start state.progress.memo :=
    RunState.advance_keeps (fun goal conserves found => Conserves.flagged conserves goal found)
      (fun conserves step_eq => RuleJob.step_conserves rfl conserves step_eq) conserves advance_eq
  cases leads with
  | start catalog starts =>
      rcases starts with ⟨limit, cancelled, root, goal, agenda, -, rfl⟩
      exact conserves
  | step advance_eq => exact advances advance_eq
  | rest advance_eq => exact advances advance_eq
  | cancel => exact conserves
  | dangle catalog _ _ leaves starts =>
      rcases starts with ⟨limit, cancelled, root, goal, agenda, -, rfl⟩
      rcases leaves with rfl | ⟨rule, target, isNew, -, marked_eq⟩
      · exact conserves
      · exact conserves.marked marked_eq

/--
However many searches with the standard rules follow on a memo that is built bottom-up, and however
they end: in every state, all trees of expressions that start in a group scan the same tables. All plans
of a group of the memo, of either kind, scan the tables of the one plan that the group started with.
-/
theorem search_conserves {memo : Memo} {catalog : Catalog} {state : RunState} {situation : Situation}
    (composed : memo.Composed) (starts : memo.Starts state)
    (runs : ReflTransGen (fun before after => ∃ source, Leads .standard source before after)
      ⟨[], catalog, state⟩ situation) :
    (∀ group first second, situation.memo.IsMixture group first →
      situation.memo.IsMixture group second → first.scanned = second.scanned) ∧
      ∀ root < memo.groups.size, ∃ input, memo.plans .logical root = {input} ∧
        ∀ kind, ∀ plan ∈ situation.memo.plans kind root, plan.scanned = input.scanned := by
  rcases composed.weighed with ⟨weight, weighed, single⟩
  have conserves : Conserves weight memo situation.memo := by
    induction runs with
    | refl =>
        rcases starts with ⟨limit, cancelled, root, goal, agenda, -, rfl⟩
        exact ⟨weight, .refl weighed⟩
    | tail _ leads ih =>
        rcases leads with ⟨source, leads⟩
        exact conserves_of_leads ih leads
  rcases conserves with ⟨wider, reweighed⟩
  refine ⟨?_, ?_⟩
  · intro group first second first_mixture second_mixture
    rw [reweighed.weighed.scanned_eq first first_mixture,
      reweighed.weighed.scanned_eq second second_mixture]
  · intro root root_lt
    rcases single root root_lt with ⟨input, input_eq⟩
    refine ⟨input, input_eq, ?_⟩
    have input_mem : input ∈ memo.plans .logical root := by rw [input_eq]; rfl
    intro kind plan plan_mem
    rw [reweighed.weighed.scanned_eq plan (Memo.isMixture reweighed.weighed.consistent plan plan_mem),
      reweighed.agrees root_lt,
      weighed.scanned_eq input (Memo.isMixture weighed.consistent input input_mem)]

theorem composed_pairJoined : PlanSpace.pairJoined.Composed :=
  .add _ _ (.add _ _ (.add _ _ .empty rfl (by simp)) rfl (by simp)) rfl (by decide)

/-- A search of ten jobs at most of the joined pair, and one that has enough of them. -/
def pairResumed :=
  tested (PlanSpace.pairJoined.resumed ⟨10, none, true⟩ ⟨100, none, true⟩ 2)
    (fun reports => decide (reports.1.outcome.isOk = false ∧ reports.2.outcome.isOk = true))
    (by decide +kernel)

/-- The first search of this example is ended by the limit on jobs, the second one succeeds. -/
theorem search_conserves_pair : ∃ aborted report : RunReport,
    PlanSpace.pairJoined.search .standard .empty ⟨10, none, true⟩ 2 false = .ok aborted ∧
      aborted.outcome.isOk = false ∧
        aborted.memo.search .standard .empty ⟨100, none, true⟩ 2 false = .ok report ∧
          report.outcome.isOk = true ∧ ∀ kind, ∀ plan ∈ report.memo.plans kind 2,
            plan.scanned = {⟨"public", "a"⟩, ⟨"public", "b"⟩} := by
  rcases pairResumed with ⟨⟨aborted, report⟩, resumed_eq, facts⟩
  rcases Memo.of_resumed resumed_eq with ⟨aborted_eq, report_eq⟩
  rcases of_decide_eq_true facts with ⟨exhausted, succeeded⟩
  have seeds : ∃ agenda, (Agenda.empty 1).seed (.group 2 .implement) = .ok agenda := ⟨_, rfl⟩
  rcases seeds with ⟨agenda, seeded⟩
  let initial : RunState := { PlanSpace.pairJoined.initialState 1 false with agenda }
  have starts : PlanSpace.pairJoined.Starts initial :=
    ⟨1, false, 2, .implement, agenda, seeded, rfl⟩
  rcases @follows_of_runs .standard ⟨[], .empty, initial⟩ .empty ⟨10, none, true⟩ 2 aborted
    (.inl ⟨false, aborted_eq⟩) with ⟨middle, early, middle_eq⟩
  rcases @follows_of_runs .standard middle .empty ⟨100, none, true⟩ 2 report
    (.inl ⟨false, middle_eq ▸ report_eq⟩) with ⟨situation, late, situation_eq⟩
  have follows : ReflTransGen (fun before after => ∃ source, Leads .standard source before after)
      ⟨[], .empty, initial⟩ situation :=
    ReflTransGen.mono (fun before after leads => ⟨_, leads⟩) _ _ (early.trans late)
  rcases (search_conserves composed_pairJoined starts follows).2 2 (by decide) with
    ⟨input, input_eq, conserved⟩
  let scan (group : GroupId) (table : String) : Plan :=
    .node group group (.logical (.scan ⟨"public", table⟩ [] none)) []
  let joined : Plan := .node 2 2 (.logical (.join .inner (.equality "a" "x" "b" "x")))
    [scan 0 "a", scan 1 "b"]
  have joined_mem : joined ∈ PlanSpace.pairJoined.plans .logical 2 :=
    ⟨rfl, by decide, _, rfl, by decide,
      ⟨rfl, by decide, _, rfl, rfl, trivial⟩,
      ⟨rfl, by decide, _, rfl, rfl, trivial⟩, trivial⟩
  rw [input_eq] at joined_mem
  obtain rfl := Set.mem_singleton_iff.mp joined_mem
  refine ⟨aborted, report, aborted_eq, exhausted, report_eq, succeeded, ?_⟩
  intro kind plan plan_mem
  rw [conserved kind plan (situation_eq ▸ plan_mem)]
  rfl

end Situation

end Searches

end Cascades
