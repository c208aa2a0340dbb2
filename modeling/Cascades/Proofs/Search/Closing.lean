import Cascades.Proofs.Search.Unfolding
import Cascades.Proofs.Search.Workload

/-!
# Searches close

A search with the standard rules on a memo that is built bottom-up has one of two ends: it succeeds, or
it has created as many jobs as it may. If the conjuncts of the memo are told apart by their texts, the
memo cannot outgrow a bound, so that a search that may create enough jobs always succeeds. If two of them
have one text, there may be no such number: some memo has a search that reaches every limit.
-/

namespace Cascades

/-- The expressions that have been asked for are expressions of the memo, with one of two goals. -/
theorem RunState.Accounts.created_le {state : RunState} {asked : Finset (ExprId × Goal)}
    (accounts : state.Accounts asked) :
    state.agenda.created ≤ 2 + 30 * state.progress.memo.expressions.size := by
  have subset : asked ⊆ Finset.range state.progress.memo.expressions.size ×ˢ
      {Goal.explore, Goal.implement} := by
    intro pair pair_mem
    refine Finset.mem_product.mpr ⟨Finset.mem_range.mpr (accounts.stored pair pair_mem), ?_⟩
    cases pair.2 <;> simp
  have card_le := Finset.card_le_card subset
  rw [Finset.card_product, Finset.card_range, Finset.card_pair (by decide)] at card_le
  have created_le := accounts.created
  omega

namespace Memo

variable {memo : Memo} {catalog : Catalog} {root : GroupId}

theorem search_ends {ground : Ground} (governed : memo.Governed ground catalog)
    (config : SearchConfig) (unreached : ∀ id goal, ¬ memo.Reached id goal)
    (root_lt : root < memo.groups.size) :
    ∃ report, memo.search .standard catalog config root false = .ok report ∧
      report.memo.Governed ground catalog ∧
      report.counts.jobsCreated ≤ 2 + 30 * report.memo.expressions.size ∧
      (report.outcome = .ok () ∨ (report.outcome = .error (.budgetExhausted config.maxJobs) ∧
        report.counts.jobsCreated = config.maxJobs)) := by
  have intact : memo.Intact := ⟨governed.built, governed.saturating.closed⟩
  obtain ⟨report, report_eq⟩ :
      ∃ report, memo.search .standard catalog config root false = .ok report :=
    intact.search_total (Rules.total_standard catalog) false
  refine ⟨report, report_eq, ?_⟩
  rcases governed.built.stops .standard catalog config root false with ⟨steps, -, stops⟩
  rw [report_eq] at stops
  generalize searched_eq : (Except.ok report : Checked RunReport) = searched at stops
  cases stops with
  | unknown absent =>
      rw [holdsGroup, decide_eq_false_iff_not] at absent
      exact (absent root_lt).elim
  | @refused failure _ seeded =>
      cases searched_eq
      refine ⟨governed, Nat.zero_le _, ?_⟩
      rw [Agenda.seed, Agenda.create] at seeded
      split at seeded
      · rename_i full
        cases seeded
        exact .inr ⟨rfl, (Nat.le_zero.mp full).symm⟩
      · cases seeded
  | @driven agenda steps outcome _ seeded stops =>
      cases outcome with
      | error reference => cases searched_eq
      | ok driven =>
          rcases driven with ⟨last, records⟩
          cases searched_eq
          let Holds (state : RunState) : Prop :=
            state.Serene ground catalog config root config.goal config.maxJobs ∧
              ∃ asked, state.Accounts asked
          have step {before next : RunState} {record : Option StepRecord} (holds : Holds before)
              (advance_eq : before.advance (context .standard catalog config) = .ok (next, record)) :
              Holds next := by
            rcases holds.2 with ⟨asked, accounts⟩
            exact ⟨holds.1.advance advance_eq, accounts.advance holds.1 advance_eq⟩
          have holds : Holds { memo.initialState config.maxJobs false with agenda } := by
            refine ⟨⟨.seeded governed unreached seeded, .seeded rfl seeded, rfl, root_lt, ?_⟩, ∅,
              .seeded seeded⟩
            intro failure failed
            rw [Agenda.seed_eq seeded] at failed
            cases failed
          rcases stops.keeps step holds rfl with ⟨before, before_holds, advance_eq⟩
          rcases step before_holds advance_eq with ⟨serene, asked, accounts⟩
          exact ⟨serene.traced.invariant.kept, accounts.created_le, before_holds.1.rest advance_eq⟩

/-- The conjuncts of the conditions and filters of a memo. -/
def conjuncts (memo : Memo) : List Scalar :=
  memo.expressions.toList.flatMap fun expression => expression.operator.form.conjuncts

theorem conjuncts_ground (tables : Nat) :
    (memo.ground tables).operators.flatMap LogicalOperator.conjuncts = memo.conjuncts := by
  rw [ground, List.flatMap_map, conjuncts]

/--
A search with the standard rules on a memo that is built bottom-up either succeeds or has run out of
jobs. If the texts of its conjuncts tell these apart, there are numbers of jobs and of expressions, for
whatever catalog, configuration and root, such that a search with so many jobs succeeds, and no search
leaves more expressions behind.
-/
theorem search_closes (composed : memo.Composed) :
    (∀ catalog config root, root < memo.groups.size → ∃ report,
      memo.search .standard catalog config root false = .ok report ∧
        (report.outcome = .ok () ∨ report.outcome = .error (.budgetExhausted config.maxJobs))) ∧
    (Scalar.Discernible memo.conjuncts → ∃ jobs expressions, ∀ catalog config root,
      root < memo.groups.size → ∃ report,
        memo.search .standard catalog config root false = .ok report ∧
          report.memo.expressions.size ≤ expressions ∧
            (jobs ≤ config.maxJobs → report.outcome = .ok ())) := by
  rcases composed.governed with ⟨tables, governed⟩
  refine ⟨fun catalog config root root_lt => ?_, fun discernible => ?_⟩
  · rcases search_ends (governed catalog) config composed.untouched.unreached root_lt with
      ⟨report, report_eq, -, -, ending⟩
    exact ⟨report, report_eq, ending.imp_right And.left⟩
  · have told_apart : (memo.ground tables).Discernible := by
      rw [Ground.Discernible, conjuncts_ground]
      exact discernible
    rcases Ground.bounded told_apart with ⟨expressions, bounded⟩
    refine ⟨3 + 30 * expressions, expressions, fun catalog config root root_lt => ?_⟩
    rcases search_ends (governed catalog) config composed.untouched.unreached root_lt with
      ⟨report, report_eq, report_governed, created_le, ending⟩
    rcases report_governed.descends with ⟨wider, report_descends⟩
    have size_le := bounded report_governed.built report_descends
    refine ⟨report, report_eq, size_le, fun enough => ending.resolve_right fun exhausted => ?_⟩
    have created_eq := exhausted.2
    omega

/-- A join of two tables has one conjunct, which nothing can be mistaken for. -/
theorem search_closes_pair : PlanSpace.pairJoined.Composed ∧
    Scalar.Discernible PlanSpace.pairJoined.conjuncts ∧ 2 < PlanSpace.pairJoined.groups.size ∧
      ∃ jobs : Nat, ∀ catalog config, jobs ≤ config.maxJobs → ∃ report,
        PlanSpace.pairJoined.search .standard catalog config 2 false = .ok report ∧
          report.outcome = .ok () := by
  have discernible : Scalar.Discernible PlanSpace.pairJoined.conjuncts := by
    unfold Scalar.Discernible
    decide
  have root_lt : 2 < PlanSpace.pairJoined.groups.size := by decide
  rcases (search_closes Situation.composed_pairJoined).2 discernible with ⟨jobs, _, closes⟩
  refine ⟨Situation.composed_pairJoined, discernible, root_lt, jobs, fun catalog config enough => ?_⟩
  rcases closes catalog config 2 root_lt with ⟨report, report_eq, -, succeeds⟩
  exact ⟨report, report_eq, succeeds enough⟩

/--
Where different conjuncts have one text, a memo that is built bottom-up may have a search that never
succeeds: whatever the limit on jobs, this one reaches it.
-/
theorem search_diverges : homographs.Composed ∧ ∀ maxJobs, ∃ report,
    homographs.search .standard .empty ⟨maxJobs, none, false⟩ 7 false = .ok report ∧
      report.outcome = .error (.budgetExhausted maxJobs) := by
  refine ⟨composed_homographs, fun maxJobs => ?_⟩
  rcases composed_homographs.governed with ⟨tables, governed⟩
  have root_lt : 7 < homographs.groups.size := by decide
  rcases search_ends (governed .empty) ⟨maxJobs, none, false⟩ composed_homographs.untouched.unreached
    root_lt with ⟨report, report_eq, report_governed, -, ending⟩
  refine ⟨report, report_eq, (ending.resolve_left fun succeeded => ?_).1⟩
  rcases report_governed.descends with ⟨weight, descends⟩
  exact search_never_refolds composed_homographs rooted_homographs (.inl ⟨false, report_eq⟩) succeeded
    accumulates_homographs (refolds_homographs report_eq succeeded descends.weighed)

end Memo

end Cascades
