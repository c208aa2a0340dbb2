import Cascades.Proofs.Rules.Algorithms
import Cascades.Proofs.Search.History

/-!
# The flags of a memo never lie

However many runs are made on a memo without flags, and however they end, between any two steps an
explored group has been explored all the way down, and an implemented one has been explored and
implemented all the way down. An explored group keeps its logical expressions, and only expressions
of explored groups are implemented.
-/

namespace Cascades

open Relation

/--
Where a sequence of runs stands: the steps that have been made, the newest first, and the run in
progress with its catalog.
-/
structure Situation where
  history : List Moment
  catalog : Catalog
  state : RunState

namespace Situation

/-- The memo as the last step has left it. -/
def memo (situation : Situation) : Memo :=
  situation.state.progress.memo

/-- What the run reads that is in progress. -/
def context (situation : Situation) (rules : Rulebook) (source : Option String) : Context :=
  ⟨rules, situation.catalog, rules.mask source⟩

end Situation

/-- A run on a memo has created the job of its root and made no step yet. -/
def Memo.Starts (memo : Memo) (state : RunState) : Prop :=
  ∃ limit cancelled root goal agenda, (Agenda.empty limit).seed (.group root goal) = .ok agenda ∧
    state = { memo.initialState limit cancelled with agenda }

/-- A step that follows a dangling reference has at most marked its rule before. -/
def Job.Leaves (job : Job) (memo left : Memo) : Prop :=
  left = memo ∨ ∃ rule target isNew, job = .applyRule ⟨rule, target⟩ ∧
    memo.markApplied target rule = .ok (left, isNew)

/--
What can happen next: the run makes a step, finds no job to step, or is cancelled, or it is over,
for whatever reason, and another one starts on the memo that it leaves behind. A run is also over
when a step follows a dangling reference.
-/
inductive Situation.Leads (rules : Rulebook) (source : Option String) :
    Situation → Situation → Prop
  | start {situation : Situation} {state : RunState} (catalog : Catalog) :
      situation.memo.Starts state → Leads rules source situation ⟨situation.history, catalog, state⟩
  | step {situation : Situation} {state : RunState} {record : StepRecord} :
      situation.state.advance (situation.context rules source) = .ok (state, some record) →
        Leads rules source situation
          ⟨⟨situation.catalog, situation.memo, record.job⟩ :: situation.history,
            situation.catalog, state⟩
  | rest {situation : Situation} {state : RunState} :
      situation.state.advance (situation.context rules source) = .ok (state, none) →
        Leads rules source situation { situation with state }
  | cancel (situation : Situation) :
      Leads rules source situation { situation with state := situation.state.cancel }
  | dangle {situation : Situation} {taken : Agenda} {id : JobId} {job : Job} {reference : Dangling}
      {left : Memo} {state : RunState} (catalog : Catalog) :
      situation.state.agenda.next situation.state.progress.cancelled = (taken, some (id, job)) →
        job.step (situation.context rules source) situation.state.progress = .error reference →
          job.Leaves situation.memo left → left.Starts state →
            Leads rules source situation
              ⟨⟨situation.catalog, situation.memo, job⟩ :: situation.history, catalog, state⟩

namespace Situation

variable {rules : Rulebook} {source : Option String}

theorem follows_of_drive {history : List Moment} {catalog : Catalog} {state after : RunState}
    {steps : Nat} {records : List StepRecord}
    (drive_eq : state.drive ⟨rules, catalog, rules.mask source⟩ steps = .ok (after, records)) :
    ∃ later, ReflTransGen (Leads rules source) ⟨history, catalog, state⟩
      ⟨later, catalog, after⟩ := by
  induction steps generalizing history state records with
  | zero =>
      cases drive_eq
      exact ⟨history, .refl⟩
  | succ steps ih =>
      rw [RunState.drive] at drive_eq
      simp only [bind, Except.bind, pure, Except.pure] at drive_eq
      split at drive_eq
      · cases drive_eq
      · rename_i advanced advance_eq
        rcases advanced with ⟨middle, none | record⟩
        · cases drive_eq
          have rest : Leads rules source ⟨history, catalog, state⟩ ⟨history, catalog, after⟩ :=
            .rest advance_eq
          exact ⟨history, .single rest⟩
        · dsimp only at drive_eq
          split at drive_eq
          · cases drive_eq
          · rename_i driven rest_eq
            rcases driven with ⟨last, others⟩
            cases drive_eq
            have step : Leads rules source ⟨history, catalog, state⟩
                ⟨⟨catalog, state.progress.memo, record.job⟩ :: history, catalog, middle⟩ :=
              .step advance_eq
            rcases ih rest_eq with ⟨later, follows⟩
            exact ⟨later, .head step follows⟩

/-- Whatever a search leaves behind, cancelled or not, is what a sequence of events leads to. -/
theorem follows_of_runs {situation : Situation} {catalog : Catalog} {config : SearchConfig}
    {root : GroupId} {report : RunReport}
    (runs : situation.memo.Runs rules catalog config root report) :
    ∃ later, ReflTransGen (Leads rules config.source) situation later ∧
      later.memo = report.memo := by
  rcases runs.cases with ⟨same, -⟩ | ⟨cancelled, agenda, early, middle, earlier, continued, late,
    state, later, seeded, early_eq, continued_eq, late_eq, rfl⟩
  · exact ⟨situation, .refl, same.symm⟩
  · rcases @follows_of_drive rules config.source situation.history catalog _ _ _ _ early_eq with
      ⟨history, before⟩
    rcases @follows_of_drive rules config.source history catalog _ _ _ _ late_eq with
      ⟨newest, after⟩
    have started := ReflTransGen.head (.start catalog ⟨_, _, _, _, agenda, seeded, rfl⟩) before
    refine ⟨⟨newest, catalog, state⟩, started.trans ?_, rfl⟩
    rcases continued_eq with rfl | rfl
    · exact after
    · exact .head (.cancel _) after

end Situation

/-! ## The invariant -/

/-- All implementation rules give physical operators. -/
def Rulebook.ImplementsPhysically (rules : Rulebook) : Prop :=
  ∀ {id rule}, rules.lookup id = .ok rule → rule.kind = .implementation → rule.IsPhysical

theorem implementsPhysically_standard : Rulebook.standard.ImplementsPhysically := by
  intro id rule lookup_eq kind_eq expression memo catalog application results apply_eq outcome_eq
  rcases Rulebook.mem_implementations lookup_eq kind_eq with ⟨number, pair_mem⟩
  rcases Rules.implementation_applies pair_mem with ⟨given, given_eq, runs⟩
  cases apply_eq.symm.trans given_eq
  cases outcome_eq
  intro result result_mem
  exact (runs result result_mem).implements.isLogical

/-- A step that applies an implementation rule does so to an expression of an explored group. -/
def Moment.Permitted (rules : Rulebook) (moment : Moment) : Prop :=
  ∀ job rule, moment.job = .applyRule job → rules.lookup job.rule = .ok rule →
    rule.kind = .implementation → ∃ expression,
      moment.memo.expression? job.expression = some expression ∧
        moment.memo.Reached expression.group .explore

namespace Situation

variable {rules : Rulebook} {source : Option String}

/-- The run in progress keeps its invariant, and every step has been permitted. -/
structure Sound (rules : Rulebook) (source : Option String) (situation : Situation) : Prop where
  running : ∃ root goal, situation.state.Invariant (situation.context rules source)
    (Truthful (situation.context rules source) (Decided rules situation.history))
    (Decided rules situation.history) root goal
  permitted : ∀ moment ∈ situation.history, moment.Permitted rules

theorem Sound.truthful {situation : Situation} (sound : situation.Sound rules source) :
    Truthful (situation.context rules source) (Decided rules situation.history)
      situation.memo := by
  rcases sound.running with ⟨root, goal, invariant⟩
  exact invariant.kept

/-- A run can start on any memo whose flags are true. -/
theorem sound_start {history : List Moment} {catalog : Catalog} {memo : Memo} {state : RunState}
    (truthful : Truthful ⟨rules, catalog, rules.mask source⟩ (Decided rules history) memo)
    (permitted : ∀ moment ∈ history, moment.Permitted rules) (starts : memo.Starts state) :
    Sound rules source ⟨history, catalog, state⟩ ∧ state.progress.memo = memo := by
  rcases starts with ⟨limit, cancelled, root, goal, agenda, seeded, rfl⟩
  exact ⟨⟨⟨root, goal, RunState.Invariant.seeded truthful seeded⟩, permitted⟩, rfl⟩

section Advance

variable (registered : rules.Registered) (physical : rules.ImplementsPhysically)
  {situation : Situation}
include registered physical

theorem stable_decided {top : Goal} (start : Memo) (history : List Moment) :
    Stable (situation.context rules source) top
      (fun memo => Truthful (situation.context rules source) (Decided rules history) memo ∧
        start.Extends memo) (Decided rules history) := by
  refine stable_truthful start (lasting_decided rules history) ?_
  intro id rule rule_mem lookup_eq
  rcases registered.kinded.lookup ((mem_phase registered.kinded).mp rule_mem).1 with
    ⟨held, held_eq, kind_eq⟩
  cases lookup_eq.symm.trans held_eq
  exact physical lookup_eq kind_eq

omit physical in
/-- Before a step is made, the invariant holds of the history that the step belongs to. -/
theorem invariant_recorded {root : GroupId} {goal : Goal}
    (invariant : situation.state.Invariant (situation.context rules source)
      (Truthful (situation.context rules source) (Decided rules situation.history))
      (Decided rules situation.history) root goal)
    {cancelled : Bool} {taken : Agenda} {id : JobId} {job : Job}
    (next_eq : situation.state.agenda.next cancelled = (taken, some (id, job))) :
    situation.state.Invariant (situation.context rules source)
      (Truthful (situation.context rules source)
        (Decided rules (⟨situation.catalog, situation.memo, job⟩ :: situation.history)))
      (Decided rules (⟨situation.catalog, situation.memo, job⟩ :: situation.history)) root
      goal := by
  by_cases chooses : ∃ choosing, job = .expression choosing ∧
      choosing.choosesRules situation.memo = true
  · rcases chooses with ⟨choosing, rfl, chooses⟩
    refine invariant.reopened next_eq chooses ?_
    intro rule other phase rule_mem different decided
    have serves := ((mem_phase registered.kinded).mp rule_mem).1
    refine decided.cons registered.kinded serves fun choice => ?_
    rcases Moment.chooses_iff.mp choice with ⟨same, same_eq, rfl, rfl, -⟩
    cases same_eq
    exact different ⟨rfl, rfl⟩
  · rw [decided_cons]
    · exact invariant
    · intro other phase choice
      rcases Moment.chooses_iff.mp choice with ⟨choosing, job_eq, -, -, choosing_chooses⟩
      exact chooses ⟨choosing, job_eq, choosing_chooses⟩

omit physical in
/-- A rule job that is handed out is permitted. -/
theorem permitted_of_next {root : GroupId} {goal : Goal} {Done : Memo → RuleId → ExprId → Prop}
    (orderly : Orderly (situation.context rules source) Done root goal situation.memo
      situation.state.agenda)
    {cancelled : Bool} {taken : Agenda} {id : JobId} {job : Job}
    (next_eq : situation.state.agenda.next cancelled = (taken, some (id, job))) :
    Moment.Permitted rules ⟨situation.catalog, situation.memo, job⟩ := by
  intro applying rule job_eq lookup_eq kind_eq
  cases job_eq
  rcases Agenda.next_spec orderly.consistent next_eq with ⟨-, -, request, took⟩
  rcases (orderly.jobs took.stored).1 with rfl
  rcases orderly.asked took rfl with ⟨wanted, expression, -, rule_mem, ripe, -⟩
  rcases registered.kinded.lookup ((mem_phase registered.kinded).mp rule_mem).1 with
    ⟨held, held_eq, held_kind⟩
  cases lookup_eq.symm.trans held_eq
  cases wanted with
  | explore =>
      rw [kind_eq] at held_kind
      cases held_kind
  | implement => exact ⟨expression, ripe.stored, ripe.explored rfl⟩

end Advance

theorem next_of_advance {context : Context} {state after : RunState} {record : Option StepRecord}
    (advance_eq : state.advance context = .ok (after, record)) :
    ∃ taken, state.agenda.next state.progress.cancelled =
      (taken, record.map fun record => (record.id, record.job)) := by
  rw [RunState.advance] at advance_eq
  generalize state.agenda.next state.progress.cancelled = handed at advance_eq
  rcases handed with ⟨taken, none | ⟨id, job⟩⟩
  · cases advance_eq
    exact ⟨taken, rfl⟩
  · simp only [bind, Except.bind, pure, Except.pure] at advance_eq
    split at advance_eq
    · cases advance_eq
    · cases advance_eq
      exact ⟨taken, rfl⟩

section Leads

variable (registered : rules.Registered) (physical : rules.ImplementsPhysically)
  {situation later : Situation}
include registered physical

omit physical in
/-- A step that is stopped has been permitted, and at most a mark is new. -/
theorem Sound.dangle (sound : situation.Sound rules source) {cancelled : Bool} {taken : Agenda}
    {id : JobId} {job : Job} {left : Memo} {state : RunState} (catalog : Catalog)
    (next_eq : situation.state.agenda.next cancelled = (taken, some (id, job)))
    (leaves : job.Leaves situation.memo left) (starts : left.Starts state) :
    Sound rules source ⟨⟨situation.catalog, situation.memo, job⟩ :: situation.history, catalog,
        state⟩ ∧ situation.memo.Extends state.progress.memo := by
  rcases sound.running with ⟨root, goal, invariant⟩
  have before := (invariant_recorded registered invariant next_eq).kept
  have after : Truthful (situation.context rules source)
      (Decided rules (⟨situation.catalog, situation.memo, job⟩ :: situation.history)) left ∧
        situation.memo.Widens .explore left := by
    rcases leaves with rfl | ⟨rule, target, isNew, -, marked⟩
    · exact ⟨before, .refl _⟩
    · have widens : situation.memo.Widens .explore left :=
        (Memo.widens_markApplied before.built.consistent marked).1
      exact ⟨before.widened (lasting_decided _ _) (before.built.markApplied marked) widens, widens⟩
  have permitted := permitted_of_next registered
    (invariant.orderly (Agenda.running_of_next next_eq)) next_eq
  rcases @sound_start rules source _ catalog _ _
    ⟨after.1.built, after.1.implemented, after.1.served⟩
    (List.forall_mem_cons.mpr ⟨permitted, sound.permitted⟩) starts with ⟨started, same⟩
  exact ⟨started, same ▸ after.2.extends_⟩

theorem Sound.step (sound : situation.Sound rules source) {state : RunState} {record : StepRecord}
    (advance_eq : situation.state.advance (situation.context rules source) =
      .ok (state, some record)) :
    Sound rules source ⟨⟨situation.catalog, situation.memo, record.job⟩ :: situation.history,
        situation.catalog, state⟩ ∧ situation.memo.Extends state.progress.memo := by
  rcases sound.running with ⟨root, goal, invariant⟩
  rcases next_of_advance advance_eq with ⟨taken, next_eq⟩
  have recorded := invariant_recorded registered invariant next_eq
  have passes {other : Agenda} {id : JobId} {job : ExpressionJob}
      (other_eq : situation.state.agenda.next situation.state.progress.cancelled =
        (other, some (id, .expression job)))
      (chooses : job.choosesRules situation.memo = true) :
      PassesOver (situation.context rules source)
        (Decided rules (⟨situation.catalog, situation.memo, record.job⟩ :: situation.history))
        situation.memo job := by
    rw [next_eq] at other_eq
    have job_eq : record.job = .expression job :=
      (Prod.mk.inj (Option.some.inj (Prod.mk.inj other_eq).2)).2
    rw [job_eq]
    exact passesOver_decided registered.kinded chooses
  rcases recorded.since.advance_of (stable_decided registered physical _ _) passes advance_eq with
    ⟨⟨⟨after, extension⟩, orderly⟩, -⟩
  have permitted := permitted_of_next registered
    (invariant.orderly (Agenda.running_of_next next_eq)) next_eq
  exact ⟨⟨⟨root, goal, after, orderly⟩, List.forall_mem_cons.mpr ⟨permitted, sound.permitted⟩⟩,
    extension⟩

theorem Sound.rest (sound : situation.Sound rules source) {state : RunState}
    (advance_eq : situation.state.advance (situation.context rules source) = .ok (state, none)) :
    Sound rules source { situation with state } ∧
      situation.memo.Extends state.progress.memo := by
  rcases sound.running with ⟨root, goal, invariant⟩
  rcases next_of_advance advance_eq with ⟨taken, next_eq⟩
  rcases invariant.since.advance_of (stable_decided registered physical _ _)
    (fun other_eq => by cases next_eq.symm.trans other_eq) advance_eq with
    ⟨⟨⟨after, extension⟩, orderly⟩, -⟩
  exact ⟨⟨⟨root, goal, after, orderly⟩, sound.permitted⟩, extension⟩

/-- Whatever happens next, the invariant is kept and the memo grows. -/
theorem Sound.leads (sound : situation.Sound rules source)
    (leads : Leads rules source situation later) :
    later.Sound rules source ∧ situation.memo.Extends later.memo := by
  cases leads with
  | start catalog starts =>
      have truthful := sound.truthful
      rcases @sound_start rules source situation.history catalog _ _
        ⟨truthful.built, truthful.implemented, truthful.served⟩ sound.permitted starts with
        ⟨started, same⟩
      exact ⟨started, same ▸ .refl _⟩
  | step advance_eq => exact sound.step registered physical advance_eq
  | rest advance_eq => exact sound.rest registered physical advance_eq
  | cancel =>
      rcases sound.running with ⟨root, goal, invariant⟩
      exact ⟨⟨⟨root, goal, invariant.kept, invariant.orderly⟩, sound.permitted⟩, .refl _⟩
  | dangle catalog next_eq _ leaves starts =>
      exact sound.dangle registered catalog next_eq leaves starts

theorem Sound.follows (sound : situation.Sound rules source)
    (follows : ReflTransGen (Leads rules source) situation later) :
    later.Sound rules source ∧ situation.memo.Extends later.memo := by
  induction follows with
  | refl => exact ⟨sound, .refl _⟩
  | tail _ leads ih =>
      rcases ih.1.leads registered physical leads with ⟨later_sound, extension⟩
      exact ⟨later_sound, ih.2.trans extension⟩

end Leads

/-- What the flags of a memo promise. -/
structure FlagsHold (rules : Rulebook) (source : Option String) (situation : Situation) : Prop where
  implemented : ∀ {id}, situation.memo.Reached id .implement → situation.memo.Reached id .explore
  children : ∀ {id goal expression}, situation.memo.Reached id goal →
    expression ∈ situation.memo.logicalIn id → ∀ child ∈ expression.children,
      situation.memo.Reached child goal
  rules : ∀ {id goal expression rule}, situation.memo.Reached id goal →
    expression ∈ situation.memo.logicalIn id → (rules.rulesFor goal).contains rule = true →
      (rules.mask source).contains rule = true →
        situation.memo.isApplied expression.id rule = .ok true ∨
          ∃ moment, lastChoice situation.history expression.id goal = some moment ∧
            moment.Excludes rules expression.id rule

theorem Sound.flagsHold {situation : Situation} (registered : rules.Registered)
    (sound : situation.Sound rules source) : situation.FlagsHold rules source := by
  have truthful := sound.truthful
  have served {id : GroupId} {goal : Goal} {expression : Expression}
      (reached : situation.memo.Reached id goal)
      (expression_mem : expression ∈ situation.memo.logicalIn id) :
      situation.memo.Ripe expression.id goal expression ∧
        ∀ rule ∈ (situation.context rules source).phase goal,
          Decided rules situation.history situation.memo rule expression.id := by
    rcases (Memo.mem_logicalIn truthful.built.consistent).mp expression_mem with
      ⟨stored, rfl, logical⟩
    rcases truthful.built.consistent.housed stored with ⟨group, found, member⟩
    rw [logical, if_pos rfl] at member
    have listed : expression.id ∈ situation.memo.logicalIds expression.group := by
      rw [Memo.logicalIds, found]
      exact member
    rcases truthful.served reached _ listed with ⟨same, ripe, decided⟩
    cases stored.symm.trans ripe.stored
    exact ⟨ripe, decided⟩
  refine ⟨truthful.implemented, ?_, ?_⟩
  · exact fun reached expression_mem => (served reached expression_mem).1.children
  · intro id goal expression rule reached expression_mem serves active
    rcases (served reached expression_mem).2 rule
      ((mem_phase registered.kinded).mpr ⟨serves, active⟩) with applied |
        ⟨wanted, moment, wanted_serves, last_eq, excludes⟩
    · exact .inl applied
    · cases registered.kinded.goal_unique serves wanted_serves
      exact .inr ⟨moment, last_eq, excludes⟩

/--
The flags of a memo hold between any two steps of any runs, an explored group keeps its logical
expressions from then on, and implementation rules are only applied to expressions of explored
groups.
-/
theorem flags_hold {memo : Memo} {catalog : Catalog} {state : RunState} {situation : Situation}
    (registered : rules.Registered) (physical : rules.ImplementsPhysically) (built : memo.Built)
    (unflagged : ∀ id goal, ¬ memo.Reached id goal) (starts : memo.Starts state)
    (runs : ReflTransGen (Leads rules source) ⟨[], catalog, state⟩ situation) :
    situation.FlagsHold rules source ∧
      (∀ {later}, ReflTransGen (Leads rules source) situation later → ∀ {id},
        situation.memo.Reached id .explore → later.memo.Reached id .explore ∧
          later.memo.logicalIds id = situation.memo.logicalIds id) ∧
        ∀ moment ∈ situation.history, moment.Permitted rules := by
  have started : Sound rules source ⟨[], catalog, state⟩ :=
    (sound_start ⟨built, fun reached => (unflagged _ _ reached).elim,
      fun reached => (unflagged _ _ reached).elim⟩ (by simp) starts).1
  have sound := (started.follows registered physical runs).1
  refine ⟨sound.flagsHold registered, ?_, sound.permitted⟩
  intro later follows id explored
  have extension := (sound.follows registered physical follows).2
  exact ⟨extension.reached explored, extension.logicalIds_eq explored⟩

/-- A search of twenty jobs at most of the chain, and one that has enough of them. -/
def chainImplemented :=
  tested (Memo.chain.resumed ⟨20, none, true⟩ ⟨400, none, true⟩ 4) (fun reports =>
    decide (reports.1.memo.Reached 3 .explore ∧ ¬ reports.1.memo.Reached 4 .explore ∧
      reports.2.memo.Reached 4 .implement)) (by decide +kernel)

/--
The first search of this example is ended by the limit on jobs before the root is explored. The
second one, on the memo that is left behind, implements it.
-/
theorem flags_hold_chain : ∃ aborted report : RunReport, ∃ situation : Situation,
    Memo.chain.search .standard .empty ⟨20, none, true⟩ 4 false = .ok aborted ∧
      aborted.memo.Reached 3 .explore ∧ ¬ aborted.memo.Reached 4 .explore ∧
        aborted.memo.search .standard .empty ⟨400, none, true⟩ 4 false = .ok report ∧
          situation.memo = report.memo ∧ situation.memo.Reached 4 .implement ∧
            situation.FlagsHold .standard none := by
  rcases chainImplemented with ⟨⟨aborted, report⟩, resumed_eq, facts⟩
  rcases Memo.of_resumed resumed_eq with ⟨aborted_eq, report_eq⟩
  rcases of_decide_eq_true facts with ⟨explored, unexplored, implemented⟩
  have seeds : ∃ agenda, (Agenda.empty 1).seed (.group 4 .implement) = .ok agenda := ⟨_, rfl⟩
  rcases seeds with ⟨agenda, seeded⟩
  let initial : RunState := { Memo.chain.initialState 1 false with agenda }
  have starts : Memo.chain.Starts initial := ⟨1, false, 4, .implement, agenda, seeded, rfl⟩
  rcases @follows_of_runs .standard ⟨[], .empty, initial⟩ .empty ⟨20, none, true⟩ 4 aborted
    (.inl ⟨false, aborted_eq⟩) with ⟨middle, early, middle_eq⟩
  rcases @follows_of_runs .standard middle .empty ⟨400, none, true⟩ 4 report
    (.inl ⟨false, middle_eq ▸ report_eq⟩) with ⟨situation, late, situation_eq⟩
  refine ⟨aborted, report, situation, aborted_eq, explored, unexplored, report_eq, situation_eq,
    situation_eq ▸ implemented, ?_⟩
  exact (flags_hold Rulebook.registered_standard implementsPhysically_standard Memo.built_chain
    Memo.untouched_chain.unreached starts (early.trans late)).1

end Situation

end Cascades
