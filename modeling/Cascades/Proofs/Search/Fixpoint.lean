import Cascades.Memo.Reach
import Cascades.Proofs.Memo.Built
import Cascades.Proofs.Search.Saturation

/-!
# A successful search is a fixpoint

Runs may be ended by the limit on jobs, and cancelled before or between any two steps. However many
such runs have been made before, after a successful one the memo stores every result of every
transformation that is to be applied to a logical expression of a group below the root.
-/

namespace Cascades

open Rules (numberedTransformations)

/-! ## Sequences of runs -/

namespace RunState

/-- The run as it goes on after a request to cancel it. -/
def cancel (state : RunState) : RunState :=
  { state with progress := { state.progress with cancelled := true } }

/-- Steps jobs, with a request to cancel the run after some steps. -/
def driveCancelled (context : Context) (early late : Nat) (state : RunState) :
    Checked (RunState × List StepRecord) := do
  let (state, records) ← state.drive context early
  let (state, others) ← state.cancel.drive context late
  return (state, records ++ others)

end RunState

/-! ## Evaluations -/

theorem eq_ok_of_toOption {ε α : Type} {result : Except ε α} {value : α}
    (value_eq : result.toOption = some value) : result = .ok value := by
  cases result with
  | error failure => cases value_eq
  | ok other => exact congrArg Except.ok (Option.some.inj value_eq)

/-- The failure of an evaluation, if it has one. -/
def failureOf {ε α : Type} : Except ε α → Option ε
  | .error failure => some failure
  | .ok _ => none

theorem eq_error_of_failureOf {ε α : Type} {result : Except ε α} {failure : ε}
    (failure_eq : failureOf result = some failure) : result = .error failure := by
  cases result with
  | error other => exact congrArg Except.error (Option.some.inj failure_eq)
  | ok value => cases failure_eq

/-- What an evaluation comes to, with a fact about it that has been tested. -/
def tested {α : Type} (value : Option α) (test : α → Bool)
    (passes : (value.filter test).isSome = true) :
    { found : α // value = some found ∧ test found = true } :=
  ⟨(value.filter test).get passes, Option.filter_eq_some_iff.mp (Option.some_get passes).symm⟩

namespace Memo

/-- A search with a request to cancel it after some steps. -/
def searchCancelled (memo : Memo) (rules : Rulebook) (catalog : Catalog) (config : SearchConfig)
    (root : GroupId) (steps : Nat) : Checked RunReport :=
  if memo.holdsGroup root then
    let initial := memo.initialState config.maxJobs false
    match initial.agenda.seed (.group root config.goal) with
    | .error failure => return { initial.report [] with outcome := .error failure }
    | .ok agenda => do
        let (state, records) ←
          RunState.driveCancelled (context rules catalog config) steps (stepLimit config.maxJobs)
            { initial with agenda }
        return state.report records
  else
    return ⟨memo, [], ⟨0, 0, 0, 0⟩, .error (.corrupted (.unknownRoot root))⟩

/-- What a search, which may be cancelled at any time, can leave behind. -/
def Runs (memo : Memo) (rules : Rulebook) (catalog : Catalog) (config : SearchConfig)
    (root : GroupId) (report : RunReport) : Prop :=
  (∃ cancelled, memo.search rules catalog config root cancelled = .ok report) ∨
    ∃ steps, memo.searchCancelled rules catalog config root steps = .ok report

/-- A memo that a sequence of searches with the same rules and catalog can lead to. -/
inductive Searched (rules : Rulebook) (catalog : Catalog) (memo : Memo) : Memo → Prop
  | none : Searched rules catalog memo memo
  | next {middle : Memo} {config : SearchConfig} {root : GroupId} {report : RunReport} :
      Searched rules catalog memo middle → middle.Runs rules catalog config root report →
        Searched rules catalog memo report.memo

/--
A search fails before its first step, but not for a structural cycle, or it is driven from its seed
on, perhaps with a request to cancel it in between.
-/
theorem Runs.cases {memo : Memo} {rules : Rulebook} {catalog : Catalog} {config : SearchConfig}
    {root : GroupId} {report : RunReport} (runs : memo.Runs rules catalog config root report) :
    (report.memo = memo ∧ (∃ failure, report.outcome = .error failure ∧
      failure.kind ≠ .structuralCycle) ∧ report.steps = [] ∧ report.counts = ⟨0, 0, 0, 0⟩) ∨
      ∃ cancelled agenda early middle earlier continued late state later,
        (Agenda.empty config.maxJobs).seed (.group root config.goal) = .ok agenda ∧
          RunState.drive (context rules catalog config) early
            { memo.initialState config.maxJobs cancelled with agenda } = .ok (middle, earlier) ∧
          (continued = middle ∨ continued = middle.cancel) ∧
          continued.drive (context rules catalog config) late = .ok (state, later) ∧
          report = state.report (earlier ++ later) := by
  have refused {request : Request} {failure : Failure}
      (seeded : (Agenda.empty config.maxJobs).seed request = .error failure) :
      failure.kind ≠ .structuralCycle := by
    rw [Agenda.seed, Agenda.create] at seeded
    split at seeded <;> cases seeded
    simp [Failure.kind]
  rcases runs with ⟨cancelled, search_eq⟩ | ⟨steps, search_eq⟩
  · rw [search] at search_eq
    split at search_eq
    · rw [serve] at search_eq
      dsimp only at search_eq
      split at search_eq
      · rename_i failure seeded
        cases search_eq
        exact .inl ⟨rfl, ⟨failure, rfl, refused seeded⟩, rfl, rfl⟩
      · rename_i agenda seeded
        simp only [bind, Except.bind, pure, Except.pure] at search_eq
        split at search_eq
        · cases search_eq
        · rename_i driven drive_eq
          rcases driven with ⟨state, records⟩
          cases search_eq
          exact .inr ⟨cancelled, agenda, _, state, records, state, 0, state, [], seeded, drive_eq,
            .inl rfl, rfl, by rw [List.append_nil]⟩
    · cases search_eq
      exact .inl ⟨rfl, ⟨_, rfl, by simp [Failure.kind]⟩, rfl, rfl⟩
  · rw [searchCancelled] at search_eq
    split at search_eq
    · dsimp only at search_eq
      split at search_eq
      · rename_i failure seeded
        cases search_eq
        exact .inl ⟨rfl, ⟨failure, rfl, refused seeded⟩, rfl, rfl⟩
      · rename_i agenda seeded
        simp only [RunState.driveCancelled, bind, Except.bind, pure, Except.pure] at search_eq
        split at search_eq
        · cases search_eq
        · rename_i driven drive_eq
          split at drive_eq
          · cases drive_eq
          · rename_i early early_eq
            split at drive_eq
            · cases drive_eq
            · rename_i late late_eq
              rcases early with ⟨middle, records⟩
              rcases late with ⟨state, others⟩
              cases drive_eq
              cases search_eq
              exact .inr ⟨false, agenda, steps, middle, records, middle.cancel, _, state, others,
                seeded, early_eq, .inr rfl, late_eq, rfl⟩
    · cases search_eq
      exact .inl ⟨rfl, ⟨_, rfl, by simp [Failure.kind]⟩, rfl, rfl⟩

section Keeps

variable {rules : Rulebook} {catalog : Catalog} {config : SearchConfig} {Kept : Memo → Prop}
  {Done : Memo → RuleId → ExprId → Prop} {memo : Memo} {root : GroupId} {report : RunReport}

/-- What a run leaves behind of an invariant of its rules. -/
structure Keeps (Kept : Memo → Prop) (memo : Memo) (root : GroupId) (goal : Goal)
    (report : RunReport) : Prop where
  kept : Kept report.memo
  grows : memo.Grows report.memo
  reached : report.outcome = .ok () → report.memo.Reached root goal

theorem keeps_report {goal : Goal} {context : Context} {state : RunState}
    (invariant : state.Invariant context Kept Done root goal)
    (grows : memo.Grows state.progress.memo) (records : List StepRecord) :
    Keeps Kept memo root goal (state.report records) :=
  ⟨invariant.kept, grows, invariant.finish⟩

/-- A failure before the first step leaves the memo as it is. -/
theorem keeps_failed {goal : Goal} (kept : Kept memo) (same : report.memo = memo)
    (failed : ∃ failure, report.outcome = .error failure ∧ failure.kind ≠ .structuralCycle) :
    Keeps Kept memo root goal report := by
  rcases failed with ⟨failure, outcome_eq, -⟩
  refine ⟨same ▸ kept, same ▸ .refl _, ?_⟩
  intro finished
  rw [outcome_eq] at finished
  cases finished

/-- A run keeps the invariant, and if it succeeds its root has been driven to the goal. -/
theorem search_keeps
    (discipline : Discipline (context rules catalog config) config.goal Kept Done)
    (kept : Kept memo) (runs : memo.Runs rules catalog config root report) :
    Keeps Kept memo root config.goal report := by
  rcases runs.cases with ⟨same, failed, -⟩ | ⟨cancelled, agenda, early, middle, earlier, continued,
    late, state, later, seeded, early_eq, continued_eq, late_eq, rfl⟩
  · exact keeps_failed kept same failed
  · have initial : RunState.Invariant (context rules catalog config) Kept Done root
        config.goal { memo.initialState config.maxJobs cancelled with agenda } :=
      RunState.Invariant.seeded kept seeded
    rcases initial.drive discipline early_eq with ⟨before, early_grows⟩
    have still : continued.Invariant (context rules catalog config) Kept Done root config.goal ∧
        middle.progress.memo = continued.progress.memo := by
      rcases continued_eq with rfl | rfl
      · exact ⟨before, rfl⟩
      · exact ⟨⟨before.kept, before.orderly⟩, rfl⟩
    rcases still.1.drive discipline late_eq with ⟨invariant, late_grows⟩
    exact keeps_report invariant (early_grows.trans (still.2 ▸ late_grows)) _

/-- Any sequence of runs keeps the invariant. -/
theorem searched_keeps {larger : Memo}
    (discipline : ∀ {config}, Discipline (context rules catalog config) config.goal Kept Done)
    (kept : Kept memo) (searched : memo.Searched rules catalog larger) :
    Kept larger ∧ memo.Grows larger := by
  induction searched with
  | none => exact ⟨kept, .refl memo⟩
  | next _ runs ih =>
      have keeps := search_keeps discipline ih.1 runs
      exact ⟨keeps.kept, ih.2.trans keeps.grows⟩

end Keeps

/-! ## The fixpoint -/

/--
A memo that nothing has been derived in: all expressions are logical ones without an origin over
existing groups, and there are no flags and no marks.
-/
structure Untouched (memo : Memo) : Prop where
  logical : ∀ {id expression}, memo.expression? id = some expression →
    expression.operator.isLogical = true
  original : ∀ {id expression}, memo.expression? id = some expression → expression.origin = none
  closed : memo.Closed
  unmarked : ∀ {id expression}, memo.expression? id = some expression →
    ∀ rule, expression.applied.contains rule = false
  unreached : ∀ id goal, ¬ memo.Reached id goal

section Fixpoint

variable {catalog : Catalog} {memo : Memo}

theorem unreached_of_mem (groups : ∀ group ∈ memo.groups, group.explored = false ∧
    group.implemented = false) (id : GroupId) (goal : Goal) : ¬ memo.Reached id goal := by
  rintro ⟨group, found, reached⟩
  have flags := groups group (Array.mem_of_getElem? found)
  cases goal with
  | explore => exact Bool.false_ne_true (flags.1.symm.trans reached)
  | implement => exact Bool.false_ne_true (flags.2.symm.trans reached)

theorem Untouched.of_mem (expressions : ∀ expression ∈ memo.expressions,
      expression.operator.isLogical = true ∧ expression.origin = none ∧
        expression.applied = .empty ∧ ∀ child ∈ expression.children, child < memo.groups.size)
    (groups : ∀ group ∈ memo.groups, group.explored = false ∧ group.implemented = false) :
    memo.Untouched where
  logical := fun found => (expressions _ (Array.mem_of_getElem? found)).1
  original := fun found => (expressions _ (Array.mem_of_getElem? found)).2.1
  closed := fun found => (expressions _ (Array.mem_of_getElem? found)).2.2.2
  unmarked := by
    intro id expression found rule
    rw [(expressions _ (Array.mem_of_getElem? found)).2.2.1, RuleSet.contains_empty]
  unreached := unreached_of_mem groups

theorem Untouched.saturating (untouched : memo.Untouched) (consistent : memo.Consistent) :
    memo.Saturating catalog where
  consistent := consistent
  closed := untouched.closed
  below := fun reached => (untouched.unreached _ _ reached).elim
  settled := fun reached => (untouched.unreached _ _ reached).elim
  marked := by
    intro expression number rule stored _ isMarked
    rw [untouched.unmarked stored] at isMarked
    cases isMarked
  commuted := by
    intro expression stored origin_eq
    rw [untouched.original stored] at origin_eq
    cases origin_eq
  implemented := fun reached => (untouched.unreached _ _ reached).elim
  physical := by
    intro expression stored isPhysical
    rw [untouched.logical stored] at isPhysical
    cases isPhysical

theorem successors_eq_nil {id : GroupId} (missing : memo.groups.size ≤ id) :
    memo.successors id = [] := by
  have none : memo.group? id = none := by simpa [group?] using missing
  rw [successors, none]

theorem mem_successors {id next : GroupId} (next_mem : next ∈ memo.successors id) :
    ∃ group member expression, memo.group? id = some group ∧ member ∈ group.expressions ∧
      memo.expression? member = some expression ∧ next ∈ expression.children := by
  rw [successors] at next_mem
  split at next_mem
  · rename_i group found
    rw [childrenOf] at next_mem
    rcases List.mem_flatMap.mp next_mem with ⟨member, member_mem, next_mem⟩
    split at next_mem
    · rename_i expression stored
      exact ⟨group, member, expression, found, member_mem, stored, next_mem⟩
    · cases next_mem
  · cases next_mem

/-- What passes to the children of all expressions holds of everything that is reachable. -/
theorem reachableGroups_of_step {Holds : GroupId → Prop} {root : GroupId} (holds : Holds root)
    (step : ∀ {id next}, Holds id → next ∈ memo.successors id → Holds next)
    (exist : ∀ {id}, Holds id → id < memo.groups.size) :
    ∃ below, memo.reachableGroups root = .ok below ∧ ∀ id ∈ below, Holds id := by
  have all_hold : ∀ id ∈ Traversal.breadthFirst memo.groups.size memo.successors root, Holds id :=
    Traversal.visit_sound (fun _ id_holds _ next_mem => step id_holds next_mem) (by simpa using holds)
  refine ⟨_, ?_, all_hold⟩
  rw [Memo.reachableGroups]
  split
  · rename_i id missing
    have exists_ := exist (all_hold id (List.mem_of_find?_eq_some missing))
    have absent := List.find?_some missing
    simp [holdsGroup, exists_] at absent
  · rfl

/-- Whatever goal a group has been driven to, it has been explored. -/
theorem Saturating.explored (saturating : memo.Saturating catalog) {id : GroupId} {goal : Goal}
    (reached : memo.Reached id goal) : memo.Reached id .explore := by
  cases goal with
  | explore => exact reached
  | implement => exact saturating.implemented reached

/-- An explored group reads explored groups only, with its physical expressions as well. -/
theorem Saturating.inputs_explored (saturating : memo.Saturating catalog) {expression : Expression}
    (stored : memo.expression? expression.id = some expression)
    (explored : memo.Reached expression.group .explore) :
    ∀ child ∈ expression.children, memo.Reached child .explore := by
  intro child child_mem
  have logical_case {other : Expression} (other_mem : other ∈ memo.logicalIn expression.group)
      (children_eq : other.children = expression.children) : memo.Reached child .explore :=
    saturating.below explored other_mem child (children_eq ▸ child_mem)
  cases logical : expression.operator.isLogical with
  | true => exact logical_case ((mem_logicalIn saturating.consistent).mpr ⟨stored, rfl, logical⟩) rfl
  | false =>
      rcases saturating.physical stored logical with none | ⟨sibling, sibling_mem, siblings⟩
      · rw [none] at child_mem
        cases child_mem
      · exact logical_case sibling_mem siblings

/-- All groups below an explored one are explored. -/
theorem Saturating.reachableGroups (saturating : memo.Saturating catalog) {root : GroupId}
    (explored : memo.Reached root .explore) :
    ∃ below, memo.reachableGroups root = .ok below ∧
      ∀ id ∈ below, memo.Reached id .explore := by
  refine reachableGroups_of_step explored ?_ Reached.lt
  intro id next id_explored next_mem
  rcases mem_successors next_mem with
    ⟨group, member, expression, found, member_mem, stored, next_mem⟩
  have group_eq : expression.group = id := by
    rcases List.mem_append.mp member_mem with logical | physical
    · rcases saturating.consistent.logical found logical with ⟨same, same_stored, group_eq, -⟩
      cases stored.symm.trans same_stored
      exact group_eq
    · rcases saturating.consistent.physical found physical with ⟨same, same_stored, group_eq, -⟩
      cases stored.symm.trans same_stored
      exact group_eq
  have own : memo.expression? expression.id = some expression :=
    (saturating.consistent.numbered stored).symm ▸ stored
  exact saturating.inputs_explored own (group_eq.symm ▸ id_explored) next next_mem

/--
Whatever a standard transformation gives for a logical expression of a group that the root reaches
is stored, unless the rule does not match the expression or promises nothing for it. It does not
matter which rule the expression stems from.
-/
def TransformationFixpoint (memo : Memo) (catalog : Catalog) (root : GroupId) : Prop :=
  ∃ below, memo.reachableGroups root = .ok below ∧ ∀ id ∈ below,
    ∃ expressions, memo.logicalOf id = .ok expressions ∧ ∀ expression ∈ expressions,
      ∀ number ∈ (Rulebook.standard.rulesFor .explore).toList, ∀ rule,
        Rulebook.standard.lookup number = .ok rule →
        rule.pattern.fits memo expression.id = .ok true →
        rule.promise expression memo catalog ≠ .ok .none →
        ∃ results, rule.apply expression memo catalog = .ok (.results results) ∧
          ∀ result ∈ results, memo.StoresResult result

/--
Runs of the standard rules that start from underived expressions, the earlier ones aborted or not,
lead to a fixpoint of the transformations once a run succeeds.
-/
theorem search_fixpoint {middle : Memo} {config : SearchConfig} {root : GroupId}
    {report : RunReport} (built : memo.Built) (untouched : memo.Untouched)
    (searched : memo.Searched .standard catalog middle)
    (runs : middle.Runs .standard catalog config root report)
    (succeeded : report.outcome = .ok ()) : report.memo.TransformationFixpoint catalog root := by
  have started : memo.Saturating catalog := untouched.saturating built.consistent
  have before := (searched_keeps standard_discipline started searched).1
  have keeps := search_keeps standard_discipline before runs
  have saturating := keeps.kept
  have reached := keeps.reached succeeded
  rcases saturating.reachableGroups (saturating.explored reached) with ⟨below, below_eq, all_explored⟩
  refine ⟨below, below_eq, ?_⟩
  intro id id_mem
  have id_explored := all_explored id id_mem
  refine ⟨_, logicalOf_eq saturating.consistent id_explored.lt, ?_⟩
  intro expression expression_mem number number_mem rule lookup_eq fits some_promise
  have stored := ((mem_logicalIn saturating.consistent).mp expression_mem).1
  have numbered : number ∈ numberedTransformations.map Prod.fst := by
    have rules_eq : (Rulebook.standard.rulesFor .explore).toList =
        numberedTransformations.map Prod.fst := by decide +kernel
    exact rules_eq ▸ number_mem
  rcases List.mem_map.mp numbered with ⟨⟨_, held⟩, pair_mem, rfl⟩
  obtain rfl : held = rule := by
    rw [Rulebook.lookup_transformation pair_mem] at lookup_eq
    cases lookup_eq
    rfl
  have steady : held.Steady catalog := Rules.steady_of_mem pair_mem
  rcases steady.promises saturating.consistent saturating.closed stored with ⟨promise, promise_eq⟩
  rcases steady.applies saturating.consistent saturating.closed stored with ⟨results, apply_eq, -⟩
  rcases Pattern.fits_spec saturating.consistent saturating.closed held.pattern stored with
    ⟨answer, fits_eq, iff⟩
  rw [fits] at fits_eq
  cases fits_eq
  refine ⟨results, apply_eq, ?_⟩
  refine saturating.settled id_explored expression_mem pair_mem promise results (iff.mp rfl)
    promise_eq ?_ apply_eq
  rintro rfl
  exact some_promise promise_eq

/-- Two joins over the scans of three tables, each of which is joined with the next. -/
def chain : Memo :=
  let scan (memo : Memo) (table : String) : Memo :=
    (memo.add (.logical (.scan ⟨"public", table⟩ [] none)) [] none).1
  let join (memo : Memo) (condition : Scalar) (left right : GroupId) : Memo :=
    (memo.add (.logical (.join .inner condition)) [left, right] none).1
  let scans := scan (scan (scan empty "a") "b") "c"
  join (join scans (.equality "a" "x" "b" "x") 0 1) (.equality "b" "y" "c" "y") 3 2

/-- A search, and another one on the memo that it leaves behind. -/
def resumed (memo : Memo) (first second : SearchConfig) (root : GroupId) :
    Option (RunReport × RunReport) :=
  (memo.search .standard .empty first root false).toOption.bind fun aborted =>
    (aborted.memo.search .standard .empty second root false).toOption.map fun report =>
      (aborted, report)

theorem of_resumed {first second : SearchConfig} {root : GroupId} {aborted report : RunReport}
    (resumed_eq : memo.resumed first second root = some (aborted, report)) :
    memo.search .standard .empty first root false = .ok aborted ∧
      aborted.memo.search .standard .empty second root false = .ok report := by
  rcases Option.bind_eq_some_iff.mp resumed_eq with ⟨earlier, earlier_eq, later⟩
  rcases Option.map_eq_some_iff.mp later with ⟨last, last_eq, same⟩
  cases same
  exact ⟨eq_ok_of_toOption earlier_eq, eq_ok_of_toOption last_eq⟩

theorem built_chain : chain.Built :=
  .add _ _ _ (.add _ _ _ (.add _ _ _ (.add _ _ _ (.add _ _ _ .empty))))

theorem untouched_chain : chain.Untouched :=
  .of_mem (by decide +kernel) (by decide +kernel)

/-- A run of twelve jobs at most over the chain, and one that has enough of them. -/
def chainExplored :=
  tested (chain.resumed ⟨12, none, false⟩ ⟨100, none, false⟩ 4) (fun reports =>
    decide (reports.1.outcome = .error (.budgetExhausted 12) ∧ reports.2.outcome = .ok ()))
    (by decide +kernel)

/-- The first run of this example is ended by the limit on jobs, the second one succeeds. -/
theorem search_fixpoint_chain : ∃ aborted report,
    chain.search .standard .empty ⟨12, none, false⟩ 4 false = .ok aborted ∧
      aborted.outcome = .error (.budgetExhausted 12) ∧
        aborted.memo.search .standard .empty ⟨100, none, false⟩ 4 false = .ok report ∧
          report.outcome = .ok () ∧ report.memo.TransformationFixpoint .empty 4 := by
  rcases chainExplored with ⟨⟨aborted, report⟩, resumed_eq, outcomes⟩
  rcases of_resumed resumed_eq with ⟨aborted_eq, report_eq⟩
  rcases of_decide_eq_true outcomes with ⟨exhausted, succeeded⟩
  refine ⟨aborted, report, aborted_eq, exhausted, report_eq, succeeded, ?_⟩
  exact search_fixpoint built_chain untouched_chain (.next .none (.inl ⟨false, aborted_eq⟩))
    (.inl ⟨false, report_eq⟩) succeeded

end Fixpoint

end Memo

end Cascades
