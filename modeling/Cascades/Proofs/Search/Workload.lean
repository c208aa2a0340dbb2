import Cascades.Proofs.Rules.Population
import Cascades.Proofs.Search.Endings

/-!
# How many jobs a search creates

The job of a group asks for each of its logical expressions once. What the job of an expression asks
for is limited by its children and by the rules. So a search with the standard rules creates no more
jobs than the memo that it leaves behind accounts for.
-/

namespace Cascades

/-! ## Stored jobs -/

namespace Agenda

variable {agenda : Agenda} {id : JobId} {entry : Entry} {request other : Request} {job state : Job}
  {requests : List Request}

theorem ne_of_handedOut {holder : JobId} {found : Entry} (live : agenda.live? id = some entry)
    (job_none : entry.job = none) (found_live : agenda.live? holder = some found)
    (stored : found.job = some state) : id ≠ holder := by
  rintro rfl
  cases live.symm.trans found_live
  rw [job_none] at stored
  cases stored

theorem stores_complete (consistent : agenda.Consistent) (handedOut : agenda.HandedOut id request)
    (stores : agenda.Stores other state) : (agenda.complete id).Stores other state := by
  rcases handedOut with ⟨entry, live, -, job_none⟩
  rcases stores with ⟨holder, found, found_live, request_eq, stored⟩
  have holder_ne := ne_of_handedOut live job_none found_live stored
  rcases foldl_notify (owes_removed consistent live job_none)
    (by rw [live?_removed live, if_pos rfl]) with ⟨-, trimmed⟩
  rcases trimmed.entries (by rw [live?_removed live, if_neg holder_ne]; exact found_live) with
    ⟨kept, kept_live, kept_request, kept_job, -⟩
  rw [complete_eq live]
  exact ⟨holder, kept, kept_live, kept_request.trans request_eq, kept_job.trans stored⟩

theorem assignAll_created_le : (agenda.assignAll id job requests).1.created ≤
    agenda.created + requests.length := by
  induction requests generalizing agenda with
  | nil => exact Nat.le_refl _
  | cons request rest ih =>
      rw [assignAll, List.length_cons]
      split
      · exact Nat.le_add_right _ _
      · rename_i middle server first_eq
        have first : middle.created ≤ agenda.created + 1 := by
          rw [assign] at first_eq
          split at first_eq
          · split at first_eq
            · cases first_eq
            · cases first_eq
              exact Nat.le_succ _
          · exact (create_created first_eq).1.le
        have rest_le := @ih middle
        dsimp only
        omega

/-- A suspension creates a job for each request at most, and stores the job. -/
theorem suspend_stores (consistent : agenda.Consistent) (handedOut : agenda.HandedOut id request) :
    (agenda.suspend id job requests).created ≤ agenda.created + requests.length ∧
      ((agenda.suspend id job requests).failure = none →
        (agenda.suspend id job requests).Stores request job ∧
          ∀ {other state}, agenda.Stores other state →
            (agenda.suspend id job requests).Stores other state) := by
  rcases handedOut with ⟨entry, live, request_eq, job_none⟩
  have created_le := @assignAll_created_le agenda id job requests
  cases assigned : agenda.assignAll id job requests with
  | mk middle outcome =>
      rw [assigned] at created_le
      cases outcome with
      | error failure =>
          have suspend_eq : agenda.suspend id job requests = middle.fail failure := by
            rw [suspend, assigned]
          rw [suspend_eq]
          exact ⟨created_le, fun running => (fail_ne_none middle failure running).elim⟩
      | ok servers =>
          rcases assignAll_spec consistent (lt_created live) assigned with ⟨-, enlarged, absent, -⟩
          have middle_live := enlarged.kept live
          have parked_live := @live?_parked middle id entry job servers middle_live
          rw [suspend_eq assigned middle_live absent]
          refine ⟨(@parked_frame middle id entry job servers).2.1 ▸ created_le, fun _ => ⟨?_, ?_⟩⟩
          · have here := parked_live id
            rw [if_pos rfl] at here
            exact ⟨id, _, here, request_eq, rfl⟩
          · rintro other state ⟨holder, found, found_live, found_request, stored⟩
            have holder_ne := ne_of_handedOut live job_none found_live stored
            have there := parked_live holder
            rw [if_neg holder_ne, enlarged.kept found_live] at there
            exact ⟨holder, _, there, found_request, stored⟩

end Agenda

/-! ## What a job may ask for -/

/--
The number of jobs that a job may yet ask for, with those that they may ask for in turn, but without
the members of groups. An expression has two children at most, each of which is explored when it is
to be implemented, and there are ten rules at most for either goal.
-/
def Job.allowance : Job → Nat
  | .group job => if job.goal = .implement ∧ job.exploreRequired = false then 1 else 0
  | .expression job =>
      (if job.childrenScheduled then 0 else 4) + (if job.rulesScheduled then 0 else 10)
  | .applyRule _ => 0

theorem Job.allowance_group_le (job : GroupJob) : (Job.group job).allowance ≤ 1 := by
  rw [allowance]
  split
  · exact Nat.le_refl 1
  · exact Nat.zero_le 1

/-- A group job never takes back that it has asked for a member. -/
theorem GroupJob.step_dispatches {job : GroupJob} {memo after : Memo} {next : Job}
    {requests : List Request} (step_eq : job.step memo = (after, .ok (.suspend next requests))) :
    ∃ required dispatched, job.dispatched ≤ dispatched ∧
      next = .group ⟨job.group, job.goal, required, dispatched⟩ := by
  rcases step_suspends step_eq with ⟨group, -, stepped⟩
  rcases stepIn_suspends stepped with ⟨-, ⟨-, -, rfl, -⟩ | ⟨-, -, rfl, -⟩⟩
  · exact ⟨_, _, Nat.le_refl _, rfl⟩
  · exact ⟨_, _, Nat.le_add_right _ _, rfl⟩

namespace ExpressionJob

theorem length_childRequests_le (goal : Goal) (children : List GroupId) :
    (childRequests goal children).length ≤ children.length := by
  have appended (requests : List Request) : (children.foldl (fun requests child =>
      if requests.contains (.group child goal) then requests
      else requests ++ [.group child goal]) requests).length ≤ requests.length + children.length := by
    induction children generalizing requests with
    | nil => exact Nat.le_refl _
    | cons child rest ih =>
        rw [List.foldl_cons, List.length_cons]
        split
        · exact (ih requests).trans (by omega)
        · refine (ih _).trans ?_
          rw [List.length_append, List.length_singleton]
          omega
  simpa [childRequests] using appended []

theorem length_insertByPromise (candidate : Promise × RuleId)
    (candidates : List (Promise × RuleId)) :
    (insertByPromise candidate candidates).length = candidates.length + 1 := by
  induction candidates with
  | nil => rfl
  | cons first rest ih =>
      rw [insertByPromise]
      split
      · rfl
      · rw [List.length_cons, ih, List.length_cons]

theorem length_byPromise (candidates : List (Promise × RuleId)) :
    (byPromise candidates).length = candidates.length := by
  rw [byPromise, List.length_map]
  induction candidates with
  | nil => rfl
  | cons first rest ih => rw [List.foldr_cons, length_insertByPromise, ih, List.length_cons]

variable {context : Context} {memo : Memo} {job : ExpressionJob} {expression : Expression}

theorem length_candidates_le {rules : List RuleId} {found : List (Promise × RuleId)}
    (candidates_eq : job.candidates context memo expression rules = .ok (.ok found)) :
    found.length ≤ rules.length := by
  induction rules generalizing found with
  | nil =>
      cases candidates_eq
      exact Nat.le_refl 0
  | cons rule rest ih =>
      rw [candidates] at candidates_eq
      simp only [bind, Except.bind, pure, Except.pure] at candidates_eq
      split at candidates_eq
      · cases candidates_eq
      · split at candidates_eq
        · cases candidates_eq
        · rename_i first first_eq
          split at candidates_eq
          · cases candidates_eq
          · rename_i rest_eq
            split at candidates_eq
            · cases candidates_eq
            · cases candidates_eq
              have rest_le := ih rest_eq
              have first_le : first.toList.length ≤ 1 := by cases first <;> simp
              rw [List.length_append, List.length_cons]
              omega

theorem length_applicableRules_le {rules : List RuleId}
    (rules_eq : job.applicableRules context memo expression = .ok (.ok rules)) :
    rules.length ≤ (context.phase job.goal).length := by
  rw [applicableRules] at rules_eq
  simp only [bind, Except.bind, pure, Except.pure] at rules_eq
  split at rules_eq
  · cases rules_eq
  · rename_i candidates candidates_eq
    cases candidates with
    | error failure => cases rules_eq
    | ok found =>
        cases rules_eq
        rw [length_byPromise]
        exact length_candidates_le candidates_eq

end ExpressionJob

theorem Memo.length_phase_le (catalog : Catalog) (config : SearchConfig) (goal : Goal) :
    ((Memo.context .standard catalog config).phase goal).length ≤ 10 := by
  cases goal with
  | explore =>
      rw [phase_explore, List.length_map, Rules.numberedTransformations_eq]
      exact Nat.le_of_ble_eq_true rfl
  | implement =>
      rw [phase_implement, List.length_map, Rules.numberedImplementations_eq]
      exact Nat.le_refl 10

/-! ## Members that have been asked for -/

theorem Memo.Grows.expressions_lt {memo larger : Memo} (grows : memo.Grows larger) {id : ExprId}
    (id_lt : id < memo.expressions.size) : id < larger.expressions.size := by
  rcases grows.expressions (Array.getElem?_eq_getElem id_lt) with ⟨applied, stored, -⟩
  exact Memo.lt_of_expression? stored

/-- An expression that its group has been asked for in this run, for a goal. -/
def Assigned (memo : Memo) (agenda : Agenda) (id : ExprId) (goal : Goal) : Prop :=
  ∃ expression, memo.expression? id = some expression ∧
    (memo.Reached expression.group goal ∨ ∃ required dispatched,
      agenda.Stores (.group expression.group goal)
        (.group ⟨expression.group, goal, required, dispatched⟩) ∧
      id ∈ (memo.logicalIds expression.group).take dispatched)

theorem Assigned.mono {memo larger : Memo} {agenda after : Agenda} {id : ExprId} {goal : Goal}
    (assigned : Assigned memo agenda id goal) (grows : memo.Grows larger)
    (kept : ∀ {group required dispatched},
      agenda.Stores (.group group goal) (.group ⟨group, goal, required, dispatched⟩) →
        larger.Reached group goal ∨ ∃ required more, dispatched ≤ more ∧
          after.Stores (.group group goal) (.group ⟨group, goal, required, more⟩)) :
    Assigned larger after id goal := by
  rcases assigned with ⟨expression, stored, asked⟩
  rcases grows.expressions stored with ⟨applied, larger_stored, -⟩
  refine ⟨_, larger_stored, ?_⟩
  rcases asked with reached | ⟨required, dispatched, stores, id_mem⟩
  · exact .inl (grows.reached reached)
  · refine (kept stores).imp_right ?_
    rintro ⟨later, more, dispatched_le, later_stores⟩
    refine ⟨later, more, later_stores, ?_⟩
    have wider := (grows.logicalIds expression.group).take dispatched
    exact ((wider.trans (List.take_prefix_take_left dispatched_le)).subset id_mem)

namespace RunState

variable {ground : Ground} {catalog : Catalog} {config : SearchConfig} {root : GroupId}
  {goal : Goal} {limit : Nat} {state after : RunState}

/--
The books of a run: the expressions that have been asked for, each with a goal, pay for fifteen jobs,
and these are enough for the jobs created so far and for those that they may yet ask for.
-/
structure Accounts (state : RunState) (asked : Finset (ExprId × Goal)) : Prop where
  stored : ∀ pair ∈ asked, pair.1 < state.progress.memo.expressions.size
  created : state.agenda.created ≤ 2 + 15 * asked.card
  owed : state.agenda.failure = none →
    state.agenda.created + state.agenda.owed Job.allowance ≤ 2 + 15 * asked.card
  assigned : state.agenda.failure = none → ∀ pair ∈ asked,
    Assigned state.progress.memo state.agenda pair.1 pair.2

theorem Accounts.seeded {progress : Progress} {agenda : Agenda}
    (seeded : (Agenda.empty limit).seed (.group root goal) = .ok agenda) :
    Accounts ⟨progress, agenda⟩ ∅ := by
  have agenda_eq := Agenda.seed_eq seeded
  have created_eq : agenda.created = 1 := by
    rw [agenda_eq]
    rfl
  have live : agenda.live? 0 =
      some ⟨some (Request.group root goal).job, .group root goal, 0, [], []⟩ := by
    rw [agenda_eq]
    rfl
  have owed_le : agenda.owed Job.allowance ≤ 1 := by
    rw [Agenda.owed, created_eq, Finset.sum_range_one, Agenda.due_of_job live rfl]
    exact Job.allowance_group_le _
  refine ⟨by simp, ?_, ?_, by simp⟩
  · dsimp only
    omega
  · intro _
    dsimp only
    omega

section Step

variable {taken : Agenda} {id : JobId} {job next : Job} {progress : Progress}
  {requests : List Request}

/--
What a job asks for is paid for by what it asks for less later, as another job, or by members of its
group that have not been asked for before.
-/
structure Affords (state : RunState) (job next : Job) (requests : List Request)
    (fresh : Finset (ExprId × Goal)) (bound : Nat) : Prop where
  bounded : ∀ request ∈ requests, request.job.allowance ≤ bound
  paid : next.allowance + (bound + 1) * requests.length ≤ job.allowance + 15 * fresh.card
  members : ∀ pair ∈ fresh, pair.1 < state.progress.memo.expressions.size ∧
    ¬ Assigned state.progress.memo state.agenda pair.1 pair.2 ∧ ∀ {agenda : Agenda},
      agenda.Stores job.request next → Assigned state.progress.memo agenda pair.1 pair.2

/-- The job of an expression pays for its children with its allowance, and for its rules with the rest. -/
theorem Serene.affords_expression (serene : state.Serene ground catalog config root goal limit)
    (running : state.agenda.failure = none) {job : ExpressionJob}
    (took : state.agenda.Took id (.expression job.expression job.goal) (.expression job) taken)
    (step_eq : job.step (Memo.context .standard catalog config) state.progress.memo =
      .ok (.ok (.suspend next requests))) :
    ∃ bound, state.Affords (.expression job) next requests ∅ bound := by
  have ordered := serene.traced.invariant.orderly running
  rcases ExpressionJob.step_suspends step_eq with ⟨expression, stored,
    ⟨unscheduled, rfl, rfl⟩ | ⟨unscheduled, ⟨implement, unexplored⟩ | ⟨rules, rules_eq, rfl, rfl⟩⟩⟩
  · rcases serene.traced.invariant.kept.descends with ⟨weight, descends⟩
    have length_le := (ExpressionJob.length_childRequests_le job.goal expression.children).trans
      ((descends.weighed.balanced stored).arity.trans_le (Operator.arity_le _))
    refine ⟨1, ?_, ?_, by simp⟩
    · intro request request_mem
      rcases ExpressionJob.mem_childRequests.mp request_mem with ⟨child, -, rfl⟩
      exact Job.allowance_group_le _
    · simp only [Job.allowance, unscheduled, Bool.false_eq_true, if_true, if_false,
        Finset.card_empty]
      omega
  · exact (unexplored
      (serene.paced.explored_of_took running ordered took stored implement)).elim
  · have length_le := (ExpressionJob.length_applicableRules_le rules_eq).trans
      (Memo.length_phase_le catalog config job.goal)
    refine ⟨0, ?_, ?_, by simp⟩
    · intro request request_mem
      rcases List.mem_map.mp request_mem with ⟨rule, -, rfl⟩
      exact Nat.le_refl 0
    · simp only [Job.allowance, unscheduled, Bool.false_eq_true, if_true, if_false,
        Finset.card_empty, List.length_map]
      omega

/-- The job of a group pays for the detour with its allowance, and each member pays for itself. -/
theorem affords_group (built : state.progress.memo.Built) (ordered : state.agenda.Consistent)
    {job : GroupJob} (stores : state.agenda.Stores (.group job.group job.goal) (.group job))
    {after : Memo} (step_eq : job.step state.progress.memo = (after, .ok (.suspend next requests))) :
    ∃ fresh bound, state.Affords (.group job) next requests fresh bound := by
  rcases job with ⟨home, wanted, required, dispatched⟩
  rcases GroupJob.step_suspends step_eq with ⟨group, found, stepped⟩
  have logicalIds_eq : state.progress.memo.logicalIds home = group.logical := by
    rw [Memo.logicalIds, found]
  rcases GroupJob.stepIn_suspends stepped with ⟨-, ⟨implement, unrequired, rfl, rfl⟩ |
    ⟨-, -, rfl, rfl⟩⟩
  · refine ⟨∅, 0, ?_, ?_, by simp⟩
    · intro request request_mem
      rw [List.mem_singleton.mp request_mem]
      exact Nat.le_refl 0
    · dsimp only at implement unrequired
      simp [Job.allowance, implement, unrequired]
  · dsimp only
    have nodup : group.logical.Nodup := (built.ordered.ascending found).1.imp Nat.ne_of_lt
    have fresh_nodup := nodup.sublist (List.drop_sublist dispatched group.logical)
    have unreached : ¬ state.progress.memo.Reached home wanted := by
      rintro ⟨same, same_found, reached⟩
      cases found.symm.trans same_found
      rcases GroupJob.stepIn_cases ⟨home, wanted, required, dispatched⟩ group with
        ⟨-, done⟩ | ⟨unreached, -⟩
      · cases done.symm.trans stepped
      · cases unreached.symm.trans reached
    refine ⟨((group.logical.drop dispatched).map (·, wanted)).toFinset, 14, ?_, ?_, ?_⟩
    · intro request request_mem
      rcases List.mem_map.mp request_mem with ⟨member, -, rfl⟩
      exact Nat.le_refl 14
    · have allowance_le : (Job.group ⟨home, wanted, required || wanted == .implement,
          dispatched + (group.logical.drop dispatched).length⟩).allowance = 0 := by
        rw [Job.allowance, if_neg]
        rintro ⟨implement, required⟩
        simp [show wanted = .implement from implement] at required
      rw [List.toFinset_card_of_nodup (fresh_nodup.map fun _ _ same => (Prod.mk.inj same).1),
        List.length_map, List.length_map, allowance_le]
      omega
    · intro pair pair_mem
      rcases List.mem_map.mp (List.mem_toFinset.mp pair_mem) with ⟨member, member_mem, rfl⟩
      rcases built.consistent.logical found (List.mem_of_mem_drop member_mem) with
        ⟨expression, stored, rfl, -⟩
      refine ⟨Memo.lt_of_expression? stored, ?_,
        fun {agenda} stores => ⟨expression, stored, .inr ⟨_, _, stores, ?_⟩⟩⟩
      · rintro ⟨same, same_stored, asked⟩
        cases stored.symm.trans same_stored
        rcases asked with reached | ⟨_, earlier, earlier_stores, member_asked⟩
        · exact unreached reached
        · cases Agenda.Stores.unique ordered earlier_stores stores
          rw [logicalIds_eq] at member_asked
          exact (List.disjoint_take_drop nodup (Nat.le_refl dispatched)) member_asked member_mem
      · rw [logicalIds_eq, List.length_drop, List.take_of_length_le (by omega)]
        exact List.mem_of_mem_drop member_mem

theorem Serene.affords (serene : state.Serene ground catalog config root goal limit)
    (running : state.agenda.failure = none) (took : state.agenda.Took id job.request job taken)
    (step_eq : job.step (Memo.context .standard catalog config) state.progress =
      .ok (progress, .ok (.suspend next requests))) :
    ∃ fresh bound, state.Affords job next requests fresh bound := by
  have ordered := serene.traced.invariant.orderly running
  cases job with
  | group job =>
      exact affords_group serene.traced.invariant.kept.built ordered.consistent took.stored
        (GroupJob.step_of_job step_eq)
  | expression job =>
      rw [Job.step] at step_eq
      simp only [bind, Except.bind, pure, Except.pure] at step_eq
      split at step_eq
      · cases step_eq
      · rename_i stepped
        cases step_eq
        exact ⟨∅, serene.affords_expression running took stepped⟩
  | applyRule job => cases (RuleJob.marks_of_step step_eq).1 _ rfl

section Accounts

variable {context : Context} {Kept : Memo → Prop} {Done : Memo → RuleId → ExprId → Prop}
  {asked : Finset (ExprId × Goal)} (accounts : state.Accounts asked)
  (running : state.agenda.failure = none) (ordered : state.agenda.Consistent)
  (lends : state.agenda.Lends Job.allowance job.request job taken)
  (took : state.agenda.Took id job.request job taken)
include accounts running lends took

theorem Accounts.completed (achieves : Achieves context Kept Done state.progress.memo progress.memo
      job.request (.ok .done)) : Accounts ⟨progress, taken.complete id⟩ asked := by
  rcases took.handedOut with ⟨held, held_live, -, job_none⟩
  have completed : (taken.complete id).limit = taken.limit ∧
      (taken.complete id).created = taken.created ∧
        (taken.complete id).owed Job.allowance = taken.owed Job.allowance :=
    Agenda.owed_complete took.consistent held_live job_none
  rcases completed with ⟨-, created_eq, owed_eq⟩
  have paid := accounts.owed running
  have lent := lends.owed
  refine ⟨fun pair pair_mem => achieves.grows.expressions_lt (accounts.stored pair pair_mem), ?_,
    fun _ => ?_, fun _ pair pair_mem => ?_⟩
  · dsimp only
    rw [created_eq, lends.created]
    exact accounts.created
  · dsimp only
    rw [created_eq, lends.created, owed_eq]
    omega
  · refine (accounts.assigned running pair pair_mem).mono achieves.grows ?_
    intro group required dispatched stores
    by_cases same : Request.group group pair.2 = job.request
    · have served : Served context Done progress.memo job.request := achieves.settles
      rw [← same] at served
      exact .inl served
    · exact .inr ⟨required, dispatched, Nat.le_refl _,
        Agenda.stores_complete took.consistent took.handedOut (lends.stores stores same)⟩

include ordered in
theorem Accounts.suspended (within_limit : taken.created ≤ taken.limit)
    (settles : Settles context Done state.progress.memo progress.memo job.request
      (.ok (.suspend next requests))) {fresh : Finset (ExprId × Goal)} {bound : Nat}
    (affords : state.Affords job next requests fresh bound)
    (dispatches : ∀ {own : GroupJob}, job = .group own → ∃ required dispatched,
      own.dispatched ≤ dispatched ∧ next = .group ⟨own.group, own.goal, required, dispatched⟩) :
    Accounts ⟨progress, taken.suspend id next requests⟩ (asked ∪ fresh) := by
  have memo_eq : progress.memo = state.progress.memo := settles.1
  have disjoint : Disjoint asked fresh := Finset.disjoint_left.mpr fun pair asked_mem fresh_mem =>
    (affords.members pair fresh_mem).2.1 (accounts.assigned running pair asked_mem)
  have before := accounts.owed running
  have paid := affords.paid
  have lent := lends.owed
  have created_eq := lends.created
  rcases @Agenda.suspend_stores taken id job.request next requests took.consistent took.handedOut with
    ⟨created_le, stores⟩
  have charged : Agenda.Charges Job.allowance bound taken (taken.suspend id next requests)
      next.allowance :=
    (Agenda.charges_suspend took.consistent took.handedOut within_limit affords.bounded).1
  have expanded : (bound + 1) * requests.length = bound * requests.length + requests.length :=
    Nat.succ_mul _ _
  refine ⟨?_, ?_, ?_, ?_⟩
  · intro pair pair_mem
    dsimp only
    rw [memo_eq]
    exact (Finset.mem_union.mp pair_mem).elim (accounts.stored pair) fun fresh_mem =>
      (affords.members pair fresh_mem).1
  · dsimp only
    rw [Finset.card_union_of_disjoint disjoint]
    omega
  · intro unfailed
    have owed_le := charged.owed unfailed
    have more_le : bound * ((taken.suspend id next requests).created - taken.created) ≤
        bound * requests.length := Nat.mul_le_mul_left _ (by omega)
    dsimp only
    rw [Finset.card_union_of_disjoint disjoint]
    have created_ge := charged.created_le
    omega
  · intro unfailed pair pair_mem
    rcases stores unfailed with ⟨own, others⟩
    dsimp only
    rw [memo_eq]
    rcases Finset.mem_union.mp pair_mem with asked_mem | fresh_mem
    · refine (accounts.assigned running pair asked_mem).mono (.refl _) ?_
      intro group required dispatched earlier
      by_cases same : Request.group group pair.2 = job.request
      · have own_job := Agenda.Stores.unique ordered (same ▸ earlier) took.stored
        rcases dispatches own_job.symm with ⟨later, more, dispatched_le, rfl⟩
        exact .inr ⟨later, more, dispatched_le, same ▸ own⟩
      · exact .inr ⟨required, dispatched, Nat.le_refl _, others (lends.stores earlier same)⟩
    · exact (affords.members pair fresh_mem).2.2 own

end Accounts

end Step

theorem Accounts.advance {asked : Finset (ExprId × Goal)} (accounts : state.Accounts asked)
    (serene : state.Serene ground catalog config root goal limit) {record : Option StepRecord}
    (advance_eq : state.advance (Memo.context .standard catalog config) = .ok (after, record)) :
    ∃ later, after.Accounts later := by
  have discipline := @governed_discipline catalog config goal ground
  have invariant := serene.traced.invariant
  rw [RunState.advance, serene.uncancelled] at advance_eq
  cases next_eq : state.agenda.next false with
  | mk taken handed =>
      rw [next_eq] at advance_eq
      cases handed with
      | none =>
          cases advance_eq
          have same : taken = state.agenda := by
            cases running : state.agenda.failure with
            | none =>
                exact ((serene.traced.reached.scheduled running).finished_of_next running next_eq).1
            | some failure =>
                rw [Agenda.next_of_failure running] at next_eq
                exact (Prod.mk.inj next_eq).1.symm
          subst same
          exact ⟨asked, accounts⟩
      | some pair =>
          rcases pair with ⟨id, job⟩
          simp only [bind, Except.bind, pure, Except.pure] at advance_eq
          split at advance_eq
          · cases advance_eq
          · rename_i stepped step_eq
            rcases stepped with ⟨progress, outcome⟩
            cases advance_eq
            have running := Agenda.running_of_next next_eq
            rcases invariant.achieves discipline.toStable next_eq
              (fun _ _ => discipline.passed_over invariant.kept) step_eq with ⟨took, achieves⟩
            rcases invariant.step_succeeds serene.exists_root next_eq took step_eq with
              ⟨⟨step, rfl⟩, -⟩
            have consistent := (invariant.orderly running).consistent
            have lends : state.agenda.Lends Job.allowance job.request job
                { taken with outstanding := taken.outstanding - 1 } :=
              Agenda.lends_of_next consistent next_eq took _
            have lowered_took := took.outstanding (taken.outstanding - 1)
            cases step with
            | done => exact ⟨asked, accounts.completed running lends lowered_took achieves⟩
            | suspend next requests =>
                have within_limit := (lends.created.trans_le serene.paced.created).trans_eq
                  (lends.limit.trans serene.paced.limited).symm
                rcases serene.affords running took step_eq with ⟨fresh, bound, affords⟩
                refine ⟨asked ∪ fresh, accounts.suspended running consistent lends lowered_took
                  within_limit achieves.settles affords ?_⟩
                rintro own rfl
                exact GroupJob.step_dispatches (GroupJob.step_of_job step_eq)

end RunState

end Cascades
