import Cascades.Proofs.Memo.Built
import Cascades.Proofs.Search.Fixpoint

/-!
# Searches change a memo by its operations

Whatever the rules are, a search stores expressions, records applied rules and marks groups, and does
nothing else to the memo, also if it fails or is cancelled. So a memo that arises from the empty one
by operations and searches can be built by operations alone, and is consistent.
-/

namespace Cascades

open Memo

variable {memo : Memo} {context : Context}

theorem Memo.Built.flagged (built : memo.Built) {id : GroupId} {group : Group} (goal : Goal)
    (found : memo.group? id = some group) : (memo.flagged id group goal).Built := by
  have marked : memo.sealGroup id goal group.logical.length =
      .ok (memo.flagged id group goal, true) := by
    rw [Memo.sealGroup, Memo.group, found]
    simp [bind, Except.bind, pure, Except.pure, Memo.flagged]
  exact built.sealGroup marked

/-- A property that is kept when a group is marked. -/
theorem GroupJob.step_keeps {Kept : Memo → Prop} (sealed : ∀ {memo id group} (goal : Goal),
    Kept memo → memo.group? id = some group → Kept (memo.flagged id group goal)) (kept : Kept memo)
    (job : GroupJob) : Kept (job.step memo).1 := by
  rw [step]
  split
  · exact kept
  · rename_i group found
    split
    · exact sealed job.goal kept found
    · exact kept

namespace RuleJob

variable {rule : RuleId} {Kept : Memo → Prop}

/-- A property that is kept when one of some operators is stored in a group of its own. -/
def Adds (rule : RuleId) (operators : List Operator) (Kept : Memo → Prop) : Prop :=
  ∀ memo, ∀ operator ∈ operators, ∀ children, Kept memo →
    Kept (memo.add operator children (some rule)).1

theorem Adds.mono {operators fewer : List Operator} (adds : Adds rule operators Kept)
    (subset : ∀ operator ∈ fewer, operator ∈ operators) : Adds rule fewer Kept :=
  fun memo operator operator_mem => adds memo operator (subset operator operator_mem)

mutual

theorem store_kept {memo : Memo} (kept : Kept memo) : (plan : Subplan) →
    Adds rule plan.operators Kept → Kept (store rule memo plan).1
  | .group id, _ => by
      rw [store]
      exact kept
  | .fresh operator children, adds => by
      have below := storeAll_kept kept children
        (adds.mono fun _ other_mem => List.mem_cons_of_mem operator other_mem)
      rw [store]
      split
      · rename_i stored failure stored_eq
        rwa [stored_eq] at below
      · rename_i stored groups stored_eq
        rw [stored_eq] at below
        exact adds stored operator List.mem_cons_self groups below

theorem storeAll_kept {memo : Memo} (kept : Kept memo) : (plans : List Subplan) →
    Adds rule (Subplan.operatorsOf plans) Kept → Kept (storeAll rule memo plans).1
  | [], _ => by
      rw [storeAll]
      exact kept
  | child :: rest, adds => by
      have first := store_kept kept child
        (adds.mono fun _ other_mem => List.mem_append_left _ other_mem)
      rw [storeAll]
      split
      · rename_i stored failure stored_eq
        rwa [stored_eq] at first
      · rename_i stored group stored_eq
        rw [stored_eq] at first
        have others := storeAll_kept first rest
          (adds.mono fun _ other_mem => List.mem_append_right _ other_mem)
        split
        · rename_i last failure last_eq
          rwa [last_eq] at others
        · rename_i last groups last_eq
          rwa [last_eq] at others

end

theorem prepare_kept {result : RuleResult} (adds : Adds rule result.below Kept) (kept : Kept memo) :
    Kept (prepare rule memo result).1 := by
  cases result with
  | substitution operator children => exact kept
  | nested operator children =>
      have below : Kept (storeAll rule memo children).1 := storeAll_kept kept children adds
      exact below

/-- What storing each of some results keeps is kept by storing all of them. -/
theorem insertAll_each {group : GroupId} {results : List RuleResult} {added total : Nat}
    {larger : Memo} {outcome : Except Failure Unit}
    (each : ∀ result ∈ results, ∀ memo, Kept memo → Kept (prepare rule memo result).1 ∧
      ∀ {middle next : Memo} {groups : List GroupId} {insertion : Insertion},
        prepare rule memo result = (middle, .ok (result.operator, groups)) →
          middle.addTo group result.operator groups (some rule) = .ok (next, insertion) → Kept next)
    (kept : Kept memo)
    (inserted : insertAll rule group memo added results = .ok (larger, total, outcome)) :
    Kept larger := by
  induction results generalizing memo added with
  | nil =>
      cases inserted
      exact kept
  | cons result rest ih =>
      rcases each result List.mem_cons_self memo kept with ⟨below, top⟩
      rw [insertAll] at inserted
      split at inserted
      · rename_i stored failure prepared
        rw [prepared] at below
        cases inserted
        exact below
      · rename_i stored operator groups prepared
        obtain rfl := operator_of_prepare prepared
        simp only [bind, Except.bind] at inserted
        split at inserted
        · cases inserted
        · rename_i insertion added_eq
          exact ih (fun other other_mem => each other (List.mem_cons_of_mem result other_mem))
            (top prepared added_eq) inserted

theorem insertAll_kept {group : GroupId} {results : List RuleResult} {added total : Nat}
    {larger : Memo} {outcome : Except Failure Unit}
    (adds : ∀ result ∈ results, Adds rule result.below Kept)
    (adds_to : ∀ {memo middle next : Memo} {result : RuleResult} {groups : List GroupId}
      {insertion : Insertion}, result ∈ results → Kept middle →
        prepare rule memo result = (middle, .ok (result.operator, groups)) →
          middle.addTo group result.operator groups (some rule) = .ok (next, insertion) →
            Kept next)
    (kept : Kept memo)
    (inserted : insertAll rule group memo added results = .ok (larger, total, outcome)) :
    Kept larger := by
  refine insertAll_each (fun result result_mem memo kept => ?_) kept inserted
  have below : Kept (prepare rule memo result).1 := prepare_kept (adds result result_mem) kept
  refine ⟨below, fun prepared added_eq => adds_to result_mem ?_ prepared added_eq⟩
  rwa [prepared] at below

/-- Applying a rule changes nothing, or stores results of the rule. -/
theorem stores_of_run {job : RuleJob} {applied : Rule} {expression : Expression}
    {progress after : Progress} {outcome : Except Failure Step}
    (run_eq : job.run context applied expression progress = .ok (after, outcome)) :
    (∀ step, outcome = .ok step → step = .done) ∧
      (after.memo = progress.memo ∨ ∃ application results added stored,
        applied.apply expression progress.memo context.catalog = .ok application ∧
          application.outcome = .ok results ∧
            insertAll job.rule expression.group progress.memo 0 results =
              .ok (after.memo, added, stored)) := by
  rw [run] at run_eq
  simp only [bind, Except.bind, pure, Except.pure] at run_eq
  split at run_eq
  · cases run_eq
  · rename_i application apply_eq
    split at run_eq
    · cases run_eq
      exact ⟨fun _ same => (Except.ok.inj same).symm, .inl rfl⟩
    · cases run_eq
      exact ⟨(fun _ same => by cases same), .inl rfl⟩
    · rename_i results outcome_eq
      split at run_eq
      · cases run_eq
      · rename_i inserted inserted_eq
        rcases inserted with ⟨larger, added, stored⟩
        cases run_eq
        refine ⟨?_, .inr ⟨application, results, added, stored, apply_eq, outcome_eq, inserted_eq⟩⟩
        intro step same
        cases stored with
        | error failure => cases same
        | ok => exact (Except.ok.inj same).symm

/-- A rule job marks its expression and may then store results of its rule. -/
theorem marks_of_step {job : RuleJob} {progress after : Progress} {outcome : Except Failure Step}
    (step_eq : job.step context progress = .ok (after, outcome)) :
    (∀ step, outcome = .ok step → step = .done) ∧ ∃ marked isNew,
      progress.memo.markApplied job.expression job.rule = .ok (marked, isNew) ∧
        (after.memo = marked ∨ ∃ applied expression application results added stored,
          context.rules.lookup job.rule = .ok applied ∧
            marked.expression? job.expression = some expression ∧
              applied.apply expression marked context.catalog = .ok application ∧
                application.outcome = .ok results ∧
                  insertAll job.rule expression.group marked 0 results =
                    .ok (after.memo, added, stored)) := by
  rw [step] at step_eq
  simp only [bind, Except.bind, pure, Except.pure] at step_eq
  split at step_eq
  · cases step_eq
  · rename_i outer marked_eq
    rcases outer with ⟨marked, isNew⟩
    split at step_eq
    · cases step_eq
      exact ⟨fun _ same => (Except.ok.inj same).symm, marked, isNew, marked_eq, .inl rfl⟩
    · split at step_eq
      · cases step_eq
        exact ⟨(fun _ same => by cases same), marked, isNew, marked_eq, .inl rfl⟩
      · rename_i applied lookup_eq
        cases stored : marked.expression? job.expression with
        | none =>
            rw [Memo.expression, stored] at step_eq
            cases step_eq
        | some expression =>
            rw [Memo.expression, stored] at step_eq
            rcases stores_of_run step_eq with ⟨only_done, same | ⟨application, results, added,
              stored_outcome, apply_eq, outcome_eq, inserted_eq⟩⟩
            · exact ⟨only_done, marked, isNew, marked_eq, .inl same⟩
            · exact ⟨only_done, marked, isNew, marked_eq, .inr ⟨applied, expression, application,
                results, added, stored_outcome, lookup_eq, stored, apply_eq, outcome_eq,
                inserted_eq⟩⟩

/-- Every expression of a memo is one of another memo, up to its marks, or a new one. -/
def Adding (memo : Memo) (new : Expression → Prop) (larger : Memo) : Prop :=
  ∀ id made, larger.expression? id = some made →
    (∃ before, memo.expression? id = some before ∧ made = { before with applied := made.applied }) ∨
      new made

section Adding

variable {larger : Memo} {new : Expression → Prop} {operator : Operator} {children : List GroupId}
  {origin : Option RuleId}

theorem Adding.add (adding : Adding memo new larger)
    (isNew : ∀ {made : Expression}, made.operator = operator.canonical → made.children = children →
      new made) : Adding memo new (larger.add operator children origin).1 := by
  intro id made stored
  rw [Memo.add] at stored
  split at stored
  · exact adding id made stored
  · dsimp only at stored
    rw [expression?_push] at stored
    split at stored
    · cases stored
      exact .inr (isNew rfl rfl)
    · exact adding id made stored

theorem Adding.addTo {next : Memo} {group : GroupId} {insertion : Insertion}
    (adding : Adding memo new larger)
    (isNew : ∀ {made : Expression}, made.operator = operator.canonical → made.children = children →
      made.group = group → new made)
    (added : larger.addTo group operator children origin = .ok (next, insertion)) :
    Adding memo new next := by
  intro id made stored
  rcases addTo_cases added with ⟨rfl, -⟩ | ⟨rfl, -⟩
  · exact adding id made stored
  · rw [expression?_push] at stored
    split at stored
    · cases stored
      exact .inr (isNew rfl rfl rfl)
    · exact adding id made stored

end Adding

/--
An expression that is stored after a step of a rule job has been stored before, or stems from a
result of the rule.
-/
theorem adding_of_step {job : RuleJob} {progress after : Progress} {expression : Expression}
    {outcome : Except Failure Step} (consistent : progress.memo.Consistent)
    (stored : progress.memo.expression? job.expression = some expression)
    (step_eq : job.step context progress = .ok (after, outcome)) :
    Adding progress.memo (fun made => ∃ applied application results,
      context.rules.lookup job.rule = .ok applied ∧
        applied.apply { expression with applied := expression.applied.insert job.rule }
          (progress.memo.marked expression job.rule) context.catalog = .ok application ∧
          application.outcome = .ok results ∧ ∃ result ∈ results, result.Makes expression.group made)
      after.memo := by
  rcases marks_of_step step_eq with ⟨-, marked, isNew, marked_eq, inserted⟩
  rw [markApplied_eq consistent stored] at marked_eq
  cases marked_eq
  have marks {new : Expression → Prop} :
      Adding progress.memo new (progress.memo.marked expression job.rule) := by
    intro id made made_stored
    rcases expression?_of_marked consistent stored made_stored with ⟨before, old, same, -⟩
    exact .inl ⟨before, old, same⟩
  rcases inserted with same | ⟨applied, held, application, results, added, stored_outcome, lookup_eq,
    held_eq, apply_eq, results_eq, inserted⟩
  · rw [same]
    exact marks
  · rw [expression?_marked consistent stored, if_pos rfl] at held_eq
    cases held_eq
    refine insertAll_kept ?_ ?_ marks inserted
    · intro result result_mem larger operator operator_mem children adding
      cases result with
      | substitution top groups => cases operator_mem
      | nested top plans =>
          exact adding.add fun operator_eq _ => ⟨applied, application, results, lookup_eq, apply_eq,
            results_eq, _, result_mem, .inr ⟨operator, operator_mem, operator_eq⟩⟩
    · intro larger middle next result groups insertion result_mem adding prepared added_eq
      refine adding.addTo (fun operator_eq children_eq group_eq => ?_) added_eq
      refine ⟨applied, application, results, lookup_eq, apply_eq, results_eq, result, result_mem, ?_⟩
      cases result with
      | nested top plans => exact .inl ⟨operator_eq, group_eq⟩
      | substitution top inputs =>
          refine ⟨operator_eq, group_eq, children_eq.trans ?_⟩
          rw [prepare] at prepared
          cases checked : checkGroups job.rule larger inputs with
          | error failure =>
              rw [checked] at prepared
              cases prepared
          | ok =>
              rw [checked] at prepared
              cases prepared
              rfl

theorem step_built {job : RuleJob} {progress after : Progress} {outcome : Except Failure Step}
    (built : progress.memo.Built) (step_eq : job.step context progress = .ok (after, outcome)) :
    after.memo.Built := by
  rcases marks_of_step step_eq with ⟨-, marked, isNew, marked_eq, same | ⟨applied, expression,
    application, results, added, stored, -, -, -, -, inserted⟩⟩
  · exact same ▸ built.markApplied marked_eq
  · exact insertAll_kept (fun _ _ _ operator _ children kept => kept.add operator children _)
      (fun _ kept _ added_eq => kept.addTo added_eq) (built.markApplied marked_eq) inserted

end RuleJob

section Keeps

variable {Kept : Memo → Prop}
  (sealed : ∀ {memo id group} (goal : Goal), Kept memo → memo.group? id = some group →
    Kept (memo.flagged id group goal))
  (applied : ∀ {job : RuleJob} {progress after : Progress} {outcome : Except Failure Step},
    Kept progress.memo → job.step context progress = .ok (after, outcome) → Kept after.memo)
include sealed applied

/-- What marking groups and applying rules keeps is kept by every step. -/
theorem Job.step_keeps {job : Job} {progress after : Progress} {outcome : Except Failure Step}
    (kept : Kept progress.memo) (step_eq : job.step context progress = .ok (after, outcome)) :
    Kept after.memo := by
  cases job with
  | group job =>
      cases step_eq
      exact GroupJob.step_keeps sealed kept job
  | expression job =>
      rw [Job.step] at step_eq
      simp only [bind, Except.bind, pure, Except.pure] at step_eq
      split at step_eq
      · cases step_eq
      · cases step_eq
        exact kept
  | applyRule job =>
      have started : Kept ({ progress with executed := progress.executed + 1 } : Progress).memo := kept
      exact applied started step_eq

theorem RunState.advance_keeps {state after : RunState} {record : Option StepRecord}
    (kept : Kept state.progress.memo) (advance_eq : state.advance context = .ok (after, record)) :
    Kept after.progress.memo := by
  rw [advance] at advance_eq
  split at advance_eq
  · cases advance_eq
    exact kept
  · simp only [bind, Except.bind, pure, Except.pure] at advance_eq
    split at advance_eq
    · cases advance_eq
    · rename_i stepped step_eq
      cases advance_eq
      exact Job.step_keeps sealed applied kept step_eq

theorem RunState.drive_kept {state after : RunState} {steps : Nat} {records : List StepRecord}
    (kept : Kept state.progress.memo) (drive_eq : state.drive context steps = .ok (after, records)) :
    Kept after.progress.memo :=
  drive_keeps (fun {_ _ _} before_kept advance_eq =>
    advance_keeps sealed applied before_kept advance_eq) kept drive_eq

end Keeps

namespace Memo

variable {rules : Rulebook} {catalog : Catalog} {config : SearchConfig} {report : RunReport}

theorem Built.serve (built : memo.Built) {request : Request} {cancelled : Bool}
    (serve_eq : memo.serve rules catalog config request cancelled = .ok report) :
    report.memo.Built := by
  rw [Memo.serve] at serve_eq
  dsimp only at serve_eq
  split at serve_eq
  · cases serve_eq
    exact built
  · simp only [bind, Except.bind, pure, Except.pure] at serve_eq
    split at serve_eq
    · cases serve_eq
    · rename_i driven drive_eq
      cases serve_eq
      exact RunState.drive_kept (fun _ built found => Built.flagged built _ found)
        (fun built step_eq => RuleJob.step_built built step_eq) built drive_eq

/-- What marking groups and applying rules keeps is kept by a search, whatever becomes of it. -/
theorem Runs.keeps {root : GroupId} (runs : memo.Runs rules catalog config root report)
    {Kept : Memo → Prop} (sealed : ∀ {memo id group} (goal : Goal), Kept memo →
      memo.group? id = some group → Kept (memo.flagged id group goal))
    (applied : ∀ {job : RuleJob} {progress after : Progress} {outcome : Except Failure Step},
      Kept progress.memo → job.step (Memo.context rules catalog config) progress =
        .ok (after, outcome) → Kept after.memo)
    (kept : Kept memo) : Kept report.memo := by
  rcases runs.cases with ⟨same, -⟩ | ⟨cancelled, agenda, early, middle, earlier, continued, late,
    state, later, -, early_eq, continued_eq, late_eq, rfl⟩
  · exact same ▸ kept
  · have start : Kept ({ memo.initialState config.maxJobs cancelled with agenda } :
        RunState).progress.memo := kept
    have before : Kept middle.progress.memo := RunState.drive_kept sealed applied start early_eq
    have still : Kept continued.progress.memo := by
      rcases continued_eq with rfl | rfl <;> exact before
    exact RunState.drive_kept sealed applied still late_eq

/-- Whatever becomes of a search, the memo it leaves behind can be built. -/
theorem Built.runs (built : memo.Built) {root : GroupId}
    (runs : memo.Runs rules catalog config root report) : report.memo.Built :=
  runs.keeps (fun _ built found => Built.flagged built _ found)
    (fun built step_eq => RuleJob.step_built built step_eq) built

/--
A memo that arises from the empty one by operations of a memo and by searches with any rules, which
may fail or be cancelled. A search is itself a sequence of operations, so this includes searches
whose operations are interleaved with others.
-/
inductive Arises : Memo → Prop
  | empty : Arises empty
  | add {memo : Memo} (operator : Operator) (children : List GroupId) (origin : Option RuleId) :
      Arises memo → Arises (memo.add operator children origin).1
  | addTo {memo larger : Memo} {group : GroupId} {operator : Operator} {children : List GroupId}
      {origin : Option RuleId} {insertion : Insertion} : Arises memo →
      memo.addTo group operator children origin = .ok (larger, insertion) → Arises larger
  | markApplied {memo larger : Memo} {id : ExprId} {rule : RuleId} {isNew : Bool} : Arises memo →
      memo.markApplied id rule = .ok (larger, isNew) → Arises larger
  | sealGroup {memo larger : Memo} {id : GroupId} {goal : Goal} {seen : Nat} {isSealed : Bool} :
      Arises memo → memo.sealGroup id goal seen = .ok (larger, isSealed) → Arises larger
  | serve {memo : Memo} {rules : Rulebook} {catalog : Catalog} {config : SearchConfig}
      {request : Request} {cancelled : Bool} {report : RunReport} : Arises memo →
      memo.serve rules catalog config request cancelled = .ok report → Arises report.memo
  | runs {memo : Memo} {rules : Rulebook} {catalog : Catalog} {config : SearchConfig}
      {root : GroupId} {report : RunReport} : Arises memo →
      memo.Runs rules catalog config root report → Arises report.memo

theorem Arises.built {memo : Memo} (arises : memo.Arises) : memo.Built := by
  induction arises with
  | empty => exact .empty
  | add operator children origin _ ih => exact ih.add operator children origin
  | addTo _ added ih => exact ih.addTo added
  | markApplied _ marked ih => exact ih.markApplied marked
  | sealGroup _ marked ih => exact ih.sealGroup marked
  | serve _ serve_eq ih => exact ih.serve serve_eq
  | runs _ runs ih => exact ih.runs runs

theorem Arises.consistent {memo : Memo} (arises : memo.Arises) : memo.Consistent :=
  arises.built.consistent

end Memo

end Cascades
