import Cascades.Proofs.Search.Passing

/-!
# Results that name missing groups

The results of a rule are stored one after the other, and the sub-plans of a result before the result
itself. Each group that they name has to exist when its turn comes; groups that have just been stored
do. A result that strays ends the run with a failure. What has been stored before stays in the memo,
which is as intact as it was, since no reference to a missing group is ever stored.
-/

namespace Cascades

open Relation

/-! ## Missing groups -/

mutual

/-- A sub-plan names a group that does not exist when its turn comes. -/
def Subplan.Strays (rule : RuleId) (memo : Memo) : Subplan → Prop
  | .group id => memo.holdsGroup id = false
  | .fresh _ children => Subplan.SomeStrays rule memo children

/-- One of several sub-plans names a missing group, after those before it have been stored. -/
def Subplan.SomeStrays (rule : RuleId) (memo : Memo) : List Subplan → Prop
  | [] => False
  | child :: rest => Subplan.Strays rule memo child ∨ ∃ middle group,
      RuleJob.store rule memo child = (middle, .ok group) ∧ Subplan.SomeStrays rule middle rest

end

namespace RuleResult

/-- A result names a group that does not exist when its turn comes. -/
def Strays (rule : RuleId) (memo : Memo) : RuleResult → Prop
  | .substitution _ children => ∃ child ∈ children, memo.holdsGroup child = false
  | .nested _ children => Subplan.SomeStrays rule memo children

/-- One of the results for a group names a missing group, after those before it have been stored. -/
def SomeStrays (rule : RuleId) (group : GroupId) (memo : Memo) : List RuleResult → Prop
  | [] => False
  | result :: rest => result.Strays rule memo ∨ ∃ middle operator groups larger insertion,
      RuleJob.prepare rule memo result = (middle, .ok (operator, groups)) ∧
        middle.addTo group operator groups (some rule) = .ok (larger, insertion) ∧
          SomeStrays rule group larger rest

end RuleResult

namespace RuleJob

variable {rule : RuleId}

theorem checkGroups_strays {memo : Memo} {groups : List GroupId} {child : GroupId}
    (child_mem : child ∈ groups) (missing : memo.holdsGroup child = false) :
    ∃ id, checkGroups rule memo groups = .error (.corrupted (.unknownReference rule id)) := by
  rw [checkGroups]
  cases found : groups.find? fun id => !memo.holdsGroup id with
  | some id => exact ⟨id, rfl⟩
  | none =>
      have held := List.find?_eq_none.mp found child child_mem
      simp [missing] at held

mutual

/-- A sub-plan that strays is not stored. -/
theorem store_strays {memo : Memo} : (plan : Subplan) → plan.Strays rule memo →
    ∃ id, (store rule memo plan).2 = .error (.corrupted (.unknownReference rule id))
  | .group id, strays => by
      rw [Subplan.Strays] at strays
      rcases @checkGroups_strays rule memo [id] id List.mem_cons_self strays with ⟨missing, failed⟩
      refine ⟨missing, ?_⟩
      rw [store, failed]
      rfl
  | .fresh operator children, strays => by
      rw [Subplan.Strays] at strays
      rcases storeAll_strays children strays with ⟨missing, failed⟩
      refine ⟨missing, ?_⟩
      rw [store]
      generalize storeAll rule memo children = inputs at failed
      rcases inputs with ⟨middle, outcome⟩
      cases failed
      rfl

theorem storeAll_strays {memo : Memo} : (plans : List Subplan) →
    Subplan.SomeStrays rule memo plans →
      ∃ id, (storeAll rule memo plans).2 = .error (.corrupted (.unknownReference rule id))
  | [], strays => by
      rw [Subplan.SomeStrays] at strays
      exact strays.elim
  | child :: rest, strays => by
      rw [Subplan.SomeStrays] at strays
      rw [storeAll]
      rcases strays with here | ⟨middle, group, stored, later⟩
      · rcases store_strays child here with ⟨missing, failed⟩
        refine ⟨missing, ?_⟩
        generalize store rule memo child = first at failed
        rcases first with ⟨middle, outcome⟩
        cases failed
        rfl
      · rcases storeAll_strays rest later with ⟨missing, failed⟩
        refine ⟨missing, ?_⟩
        rw [stored]
        dsimp only
        generalize storeAll rule middle rest = others at failed
        rcases others with ⟨last, outcome⟩
        cases failed
        rfl

end

theorem prepare_strays {memo : Memo} {result : RuleResult} (strays : result.Strays rule memo) :
    ∃ id, (prepare rule memo result).2 = .error (.corrupted (.unknownReference rule id)) := by
  cases result with
  | substitution operator children =>
      rcases strays with ⟨child, child_mem, missing⟩
      rcases @checkGroups_strays rule memo children child child_mem missing with ⟨id, failed⟩
      refine ⟨id, ?_⟩
      rw [prepare, failed]
      rfl
  | nested operator children =>
      rcases storeAll_strays children strays with ⟨id, failed⟩
      refine ⟨id, ?_⟩
      rw [prepare]
      generalize storeAll rule memo children = inputs at failed
      rcases inputs with ⟨middle, outcome⟩
      cases failed
      rfl

/-- The first result that strays is the last one that is looked at. -/
theorem insertAll_strays {memo larger : Memo} {group : GroupId} {results : List RuleResult}
    {added total : Nat} {outcome : Except Failure Unit}
    (strays : RuleResult.SomeStrays rule group memo results)
    (inserted : insertAll rule group memo added results = .ok (larger, total, outcome)) :
    ∃ id, outcome = .error (.corrupted (.unknownReference rule id)) := by
  induction results generalizing memo added with
  | nil => exact strays.elim
  | cons result rest ih =>
      rw [insertAll] at inserted
      rcases strays with here | ⟨middle, operator, groups, next, insertion, prepared, added_eq, later⟩
      · rcases prepare_strays here with ⟨id, failed⟩
        generalize prepare rule memo result = prepared at inserted failed
        rcases prepared with ⟨middle, prepared⟩
        cases failed
        cases inserted
        exact ⟨id, rfl⟩
      · rw [prepared] at inserted
        simp only [added_eq, bind, Except.bind] at inserted
        exact ih later inserted

/--
A rule job applies its rule to its expression, which it has marked, and the rule returns results for
the group of the expression.
-/
structure Returns (job : RuleJob) (context : Context) (memo marked : Memo) (group : GroupId)
    (results : List RuleResult) : Prop where
  marks : memo.markApplied job.expression job.rule = .ok (marked, true)
  applies : ∃ rule expression application, context.rules.lookup job.rule = .ok rule ∧
    marked.expression? job.expression = some expression ∧ expression.group = group ∧
      rule.apply expression marked context.catalog = .ok application ∧
        application.outcome = .ok results

/-- A rule job whose rule returns a result that strays fails, and leaves an intact memo behind. -/
theorem step_strays {context : Context} {job : RuleJob} {progress : Progress} {marked : Memo}
    {group : GroupId} {results : List RuleResult} (intact : progress.memo.Intact)
    (returns : job.Returns context progress.memo marked group results)
    (strays : RuleResult.SomeStrays job.rule group marked results) :
    ∃ after id, job.step context progress =
      .ok (after, .error (.corrupted (.unknownReference job.rule id))) := by
  rcases returns with
    ⟨marks, rule, expression, application, lookup_eq, stored, rfl, apply_eq, results_eq⟩
  have marked_intact : marked.Intact := by
    cases unmarked : progress.memo.expression? job.expression with
    | none =>
        rw [Memo.markApplied, Memo.expression, unmarked] at marks
        cases marks
    | some before =>
        have consistent := intact.built.consistent
        refine ⟨intact.built.markApplied marks, ?_⟩
        rw [Memo.markApplied_eq consistent unmarked] at marks
        rw [← (Prod.mk.inj (Except.ok.inj marks)).1]
        exact Memo.Closed.marked consistent intact.closed unmarked
  rcases @insertAll_intact job.rule marked marked_intact expression.group
    (marked_intact.built.consistent.group_lt stored) 0 results with
    ⟨larger, total, outcome, inserted, -⟩
  rcases insertAll_strays strays inserted with ⟨id, rfl⟩
  rw [step, marks]
  simp only [bind, Except.bind, pure, Except.pure, lookup_eq, Memo.expression, stored, run, apply_eq,
    results_eq, inserted]
  exact ⟨_, id, rfl⟩

end RuleJob

/-! ## Runs -/

namespace RunState

variable {context : Context} {root : GroupId} {goal : Goal} {state next : RunState}

/-- In its next step, a run applies a rule that returns a result that strays. -/
def Strays (context : Context) (state : RunState) (rule : RuleId) : Prop :=
  ∃ taken id target marked group results,
    state.agenda.next state.progress.cancelled = (taken, some (id, .applyRule ⟨rule, target⟩)) ∧
      RuleJob.Returns ⟨rule, target⟩ context state.progress.memo marked group results ∧
        RuleResult.SomeStrays rule group marked results

/-- The step of a result that strays is the last one of the run. -/
theorem Invariant.stops_strays {Done : Memo → RuleId → ExprId → Prop} {rule : RuleId}
    (invariant : state.Invariant context Memo.Intact Done root goal)
    (strays : state.Strays context rule) : ∃ last records missing,
      StopsIn context 1 state (.ok (last, records)) ∧
        last.agenda.failure = some (.corrupted (.unknownReference rule missing)) := by
  rcases strays with ⟨taken, id, target, marked, group, results, next_eq, returns, strays⟩
  let started : Progress := { state.progress with executed := state.progress.executed + 1 }
  have started_intact : started.memo.Intact := invariant.kept
  rcases RuleJob.step_strays started_intact returns strays with ⟨after, missing, step_eq⟩
  let failure : Failure := .corrupted (.unknownReference rule missing)
  let last : RunState := ⟨after, taken.settle id (.error failure)⟩
  let record : StepRecord := ⟨id, .applyRule ⟨rule, target⟩, .error failure⟩
  have stepped : (Job.applyRule ⟨rule, target⟩).step context state.progress =
      .ok (after, .error failure) := step_eq
  have advance_eq : state.advance context = .ok (last, some record) := by
    rw [RunState.advance, next_eq]
    simp only [stepped, bind, Except.bind, pure, Except.pure]
    rfl
  have running := Agenda.running_of_next next_eq
  rcases Agenda.next_spec (invariant.orderly running).consistent next_eq with ⟨-, -, request, took⟩
  have failed : last.agenda.failure = some failure := by
    change taken.failure.or (some failure) = some failure
    rw [took.failure, running, Option.none_or]
  have rests : last.advance context = .ok (last, none) := by
    rw [RunState.advance, Agenda.next_of_failure failed]
    rfl
  exact ⟨last, [record], missing, .step advance_eq (.rest rests), failed⟩

end RunState

/-! ## Searches -/

namespace Memo

variable {memo : Memo} {rules : Rulebook} {catalog : Catalog} {config : SearchConfig}
  {root : GroupId}

/-- A search is in a state before one of its steps. -/
def Passes (memo : Memo) (rules : Rulebook) (catalog : Catalog) (config : SearchConfig)
    (root : GroupId) (cancelled : Bool) (state : RunState) : Prop :=
  memo.holdsGroup root = true ∧ ∃ agenda,
    (Agenda.empty config.maxJobs).seed (.group root config.goal) = .ok agenda ∧
      ReflTransGen (RunState.Steps (context rules catalog config))
        { memo.initialState config.maxJobs cancelled with agenda } state

/-- A search with total rules that is cancelled follows no dangling reference either. -/
theorem Intact.searchCancelled_total (intact : memo.Intact) (total : rules.Total catalog)
    (steps : Nat) :
    ∃ report, memo.searchCancelled rules catalog config root steps = .ok report := by
  rw [searchCancelled]
  split
  · dsimp only
    split
    · exact ⟨_, rfl⟩
    · rename_i agenda seeded
      have invariant : RunState.Invariant (context rules catalog config) Intact
          (fun _ _ _ => True) root config.goal
          { memo.initialState config.maxJobs false with agenda } := .seeded intact seeded
      rcases invariant.drive_total total steps with ⟨middle, early, early_eq⟩
      have between := (invariant.drive (intact_discipline total config.goal) early_eq).1
      have still : middle.cancel.Invariant (context rules catalog config) Intact (fun _ _ _ => True)
          root config.goal := ⟨between.kept, between.orderly⟩
      rcases still.drive_total total (stepLimit config.maxJobs) with ⟨last, late, late_eq⟩
      simp only [RunState.driveCancelled, early_eq, late_eq, bind, Except.bind, pure, Except.pure]
      exact ⟨_, rfl⟩
  · exact ⟨_, rfl⟩

/-- A search that comes to a result that strays ends with a failure. -/
theorem Intact.search_strays (intact : memo.Intact) (total : rules.Total catalog)
    {cancelled : Bool} {state : RunState} {rule : RuleId}
    (passes : memo.Passes rules catalog config root cancelled state)
    (strays : state.Strays (context rules catalog config) rule) : ∃ report missing,
      memo.search rules catalog config root cancelled = .ok report ∧
        report.outcome = .error (.corrupted (.unknownReference rule missing)) := by
  rcases passes with ⟨holds, agenda, seeded, passed⟩
  have invariant : RunState.Invariant (context rules catalog config) Intact (fun _ _ _ => True)
      root config.goal { memo.initialState config.maxJobs cancelled with agenda } :=
    .seeded intact seeded
  have here := invariant.passes (intact_discipline total config.goal) passed
  rcases here.stops_strays strays with ⟨last, records, missing, stops, failed⟩
  rcases stops.of_steps passed with ⟨steps, earlier, all_stops⟩
  refine ⟨last.report earlier, missing,
    intact.built.search_of_stops cancelled holds seeded all_stops, ?_⟩
  rw [RunState.report, Agenda.finish, failed]

/--
Results of rules cannot spoil a memo. If all children of expressions exist and the rules are total,
a search follows no dangling reference, also if it is cancelled, and leaves a memo behind in which all
children and the groups of all expressions exist, whether it succeeds or fails. If a rule returns a
result that names a missing group in some state that a search passes, the search fails for that.
-/
theorem search_withstands (intact : memo.Intact) (total : rules.Total catalog) :
    (∀ cancelled, ∃ report, memo.search rules catalog config root cancelled = .ok report) ∧
    (∀ steps, ∃ report, memo.searchCancelled rules catalog config root steps = .ok report) ∧
    (∀ report, memo.Runs rules catalog config root report → report.memo.Closed ∧
      ∀ {id expression}, report.memo.expression? id = some expression →
        expression.group < report.memo.groups.size) ∧
    (∀ cancelled state rule, memo.Passes rules catalog config root cancelled state →
      state.Strays (context rules catalog config) rule → ∃ report missing,
        memo.search rules catalog config root cancelled = .ok report ∧
          report.outcome = .error (.corrupted (.unknownReference rule missing))) := by
  refine ⟨intact.search_total total, intact.searchCancelled_total total, ?_, ?_⟩
  · intro report runs
    have kept := (search_keeps (intact_discipline total config.goal) intact runs).kept
    exact ⟨kept.closed, fun stored => kept.built.consistent.group_lt stored⟩
  · exact fun _ _ _ passes strays => intact.search_strays total passes strays

/-- A scan of a table. -/
def singleScan : Memo :=
  (add empty (.logical (.scan ⟨"public", "a"⟩ [] none)) [] none).1

/-- Gives a filter over a scan that is new, and then a join of that scan with a missing group. -/
def strayRule : Rule where
  name := "Stray"
  kind := .transformation
  pattern := .any
  incompatible := []
  promise := Rule.defaultPromise
  apply := fun _ _ _ => .ok (.results
    [.nested (.logical (.filter .truth)) [.fresh (.logical (.scan ⟨"public", "b"⟩ [] none)) []],
      .nested (.logical (.join .inner .truth)) [.group 1, .group 7]])

/-- The rulebook of this rule alone. -/
def strayRules : Rulebook :=
  (Rulebook.empty.register strayRule none).1

theorem lookup_strayRules {id : RuleId} {rule : Rule} (lookup_eq : strayRules.lookup id = .ok rule) :
    rule = strayRule := by
  have slots_eq : strayRules.slots = #[.active strayRule none] := by
    with_unfolding_all rfl
  rw [Rulebook.lookup, Rulebook.slot?, slots_eq] at lookup_eq
  split at lookup_eq
  · rename_i held source slot_eq
    cases lookup_eq
    have slot_mem := Array.mem_of_getElem? slot_eq
    simp only [List.mem_toArray, List.mem_singleton, RuleSlot.active.injEq] at slot_mem
    exact slot_mem.1
  · cases lookup_eq
  · cases lookup_eq

/-- The state in which the rule is about to be applied to the scan. -/
def strayState : RunState where
  progress := ⟨singleScan, 2, 0, 0, false⟩
  agenda :=
    { limit := 100
      entries := #[
        some ⟨some (.group ⟨0, .explore, false, 1⟩), .group 0 .explore, 1, [], [1]⟩,
        some ⟨some (.expression ⟨0, .explore, true, true⟩), .expression 0 .explore, 1, [0], [2]⟩,
        some ⟨some (.applyRule ⟨0, 0⟩), .applyRule 0 0, 0, [1], []⟩]
      ready := [2]
      active := [(.applyRule 0 0, 2), (.expression 0 .explore, 1), (.group 0 .explore, 0)]
      outstanding := 0
      root := some 0
      finished := false
      failure := none }

/-- The filter is stored before the join is found to name a missing group, which ends the search. -/
theorem search_withstands_scan : ∃ report missing,
    singleScan.search strayRules .empty ⟨100, none, false⟩ 0 false = .ok report ∧
      report.outcome = .error (.corrupted (.unknownReference 0 missing)) ∧ report.memo.Closed := by
  have untouched : singleScan.Untouched := .of_mem (by decide) (by decide)
  have intact : singleScan.Intact := ⟨.add _ _ _ .empty, untouched.closed⟩
  have total : strayRules.Total .empty := by
    intro id rule lookup_eq
    obtain rfl := lookup_strayRules lookup_eq
    exact ⟨fun _ _ => ⟨_, rfl⟩, fun _ _ => ⟨_, rfl⟩⟩
  rcases @search_withstands _ _ _ ⟨100, none, false⟩ 0 intact total with ⟨-, -, keeps, fails⟩
  have passes : singleScan.Passes strayRules .empty ⟨100, none, false⟩ 0 false strayState :=
    ⟨by decide, _, rfl, .tail (.tail .refl ⟨_, by with_unfolding_all rfl⟩)
      ⟨_, by with_unfolding_all rfl⟩⟩
  have strays : strayState.Strays (context strayRules .empty ⟨100, none, false⟩) 0 := by
    refine ⟨_, 2, 0, _, 0, _, rfl, ⟨by with_unfolding_all rfl, strayRule, _, _,
      by with_unfolding_all rfl, by with_unfolding_all rfl, rfl, rfl, rfl⟩, ?_⟩
    -- the filter is stored, and so is the first child of the join, but not the second one
    refine .inr ⟨_, _, _, _, _, by with_unfolding_all rfl, by with_unfolding_all rfl, .inl ?_⟩
    exact .inr ⟨_, _, by with_unfolding_all rfl, .inl (by with_unfolding_all rfl)⟩
  rcases fails false strayState 0 passes strays with ⟨report, missing, report_eq, failed⟩
  exact ⟨report, missing, report_eq, failed, (keeps report (.inl ⟨false, report_eq⟩)).1⟩

end Memo

end Cascades
