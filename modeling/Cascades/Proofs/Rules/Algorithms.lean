import Cascades.Proofs.Rules.Standard

/-!
# Algorithms

A physical operator runs a logical one, whose payload it has. The implementations give the physical
operators that run the operator of a logical expression, each of them is given by one rule only, and
they give nothing else. A rule only matches expressions with as many inputs as its operators have.
-/

namespace Cascades

/-- The number of inputs of an operator. -/
def LogicalOperator.arity : LogicalOperator → Nat
  | .scan .. => 0
  | .join .. => 2
  | _ => 1

/-- The logical operator that a physical one runs. -/
def PhysicalOperator.form : PhysicalOperator → LogicalOperator
  | .seqScan table columns predicate => .scan table columns predicate
  | .filter predicate => .filter predicate
  | .project scalars aliases => .project scalars aliases
  | .hashJoin type _ condition => .join type condition
  | .mergeJoin type condition => .join type condition
  | .nestedLoopJoin type condition => .join type condition
  | .hashAggregate keys aggregates => .aggregate keys aggregates
  | .streamAggregate keys aggregates => .aggregate keys aggregates
  | .sort order => .sort order
  | .limit offset count => .limit offset count

/-- The standard rule that gives an operator. -/
def PhysicalOperator.rule : PhysicalOperator → Rule
  | .hashJoin .. => Rules.hashJoin
  | .mergeJoin .. => Rules.mergeJoin
  | .nestedLoopJoin .. => Rules.nestedLoopJoin
  | .seqScan .. => Rules.seqScan
  | .hashAggregate .. => Rules.hashAggregate
  | .streamAggregate .. => Rules.streamAggregate
  | .sort .. => Rules.sort
  | .filter .. => Rules.filter
  | .project .. => Rules.project
  | .limit .. => Rules.limit

/-- The number of the standard rule that gives an operator. -/
def PhysicalOperator.maker : PhysicalOperator → RuleId
  | .hashJoin .. => UInt16.ofNat 5
  | .mergeJoin .. => UInt16.ofNat 6
  | .nestedLoopJoin .. => UInt16.ofNat 7
  | .seqScan .. => UInt16.ofNat 8
  | .hashAggregate .. => UInt16.ofNat 9
  | .streamAggregate .. => UInt16.ofNat 10
  | .sort .. => UInt16.ofNat 11
  | .filter .. => UInt16.ofNat 12
  | .project .. => UInt16.ofNat 13
  | .limit .. => UInt16.ofNat 14

namespace LogicalOperator

/-- The physical operators that can run an operator. -/
def algorithms : LogicalOperator → List PhysicalOperator
  | .scan table columns predicate => [.seqScan table columns predicate]
  | .filter predicate => [.filter predicate]
  | .project scalars aliases => [.project scalars aliases]
  | .join type condition =>
      (if Rules.canHash type condition then
        [.hashJoin type .right condition, .hashJoin type .left condition]
      else []) ++
        (if Rules.canMerge type condition then [.mergeJoin .inner condition] else []) ++
          [.nestedLoopJoin type condition]
  | .aggregate keys aggregates => [.hashAggregate keys aggregates, .streamAggregate keys aggregates]
  | .sort order => [.sort order]
  | .limit offset count => [.limit offset count]

/-- The physical operators that can run an operator over a number of inputs. -/
def algorithmsOver (operator : LogicalOperator) (inputs : Nat) : List PhysicalOperator :=
  if inputs = operator.arity then operator.algorithms else []

/-- The number of ways to run an operator over a number of inputs. -/
def choices : LogicalOperator → Nat → Nat
  | .scan .., 0 => 1
  | .filter .., 1 => 1
  | .project .., 1 => 1
  | .sort .., 1 => 1
  | .limit .., 1 => 1
  | .aggregate .., 1 => 2
  | .join type condition, 2 =>
      if condition.hasEquality then if type = .inner then 4 else 3
      else if type = .cross then 3 else 1
  | _, _ => 0

variable {operator : LogicalOperator} {physical : PhysicalOperator}

theorem form_of_mem (physical_mem : physical ∈ operator.algorithms) : physical.form = operator := by
  cases operator with
  | join type condition =>
      simp only [algorithms, List.mem_append, List.mem_singleton] at physical_mem
      rcases physical_mem with (hashed | merged) | rfl
      · split at hashed
        · simp only [List.mem_cons, List.not_mem_nil, or_false] at hashed
          rcases hashed with rfl | rfl <;> rfl
        · cases hashed
      · split at merged
        · rename_i can_merge
          simp only [Rules.canMerge, Bool.and_eq_true, beq_iff_eq] at can_merge
          rw [List.mem_singleton.mp merged, can_merge.2]
          rfl
        · cases merged
      · rfl
  | aggregate keys aggregates =>
      simp only [algorithms, List.mem_cons, List.not_mem_nil, or_false] at physical_mem
      rcases physical_mem with rfl | rfl <;> rfl
  | _ =>
      rw [List.mem_singleton.mp physical_mem]
      rfl

theorem nodup_algorithms (operator : LogicalOperator) : operator.algorithms.Nodup := by
  cases operator with
  | join type condition =>
      simp only [algorithms]
      split <;> split <;> simp
  | _ => simp [algorithms]

theorem nodup_algorithmsOver (operator : LogicalOperator) (inputs : Nat) :
    (operator.algorithmsOver inputs).Nodup := by
  rw [algorithmsOver]
  split
  · exact operator.nodup_algorithms
  · exact List.nodup_nil

theorem length_algorithmsOver (operator : LogicalOperator) (inputs : Nat) :
    (operator.algorithmsOver inputs).length = operator.choices inputs := by
  rw [algorithmsOver]
  cases operator with
  | join type condition =>
      rcases inputs with _ | _ | _ | inputs
      · rfl
      · rfl
      · cases type <;> cases equi : condition.hasEquality <;>
          simp [arity, algorithms, choices, Rules.canHash, Rules.canMerge, equi]
      · rfl
  | scan => rcases inputs with _ | inputs <;> rfl
  | _ => rcases inputs with _ | _ | inputs <;> rfl

theorem canonical_of_mem (canonical : operator.canonical = operator)
    (physical_mem : physical ∈ operator.algorithms) : physical.canonical = physical := by
  have form_eq := form_of_mem physical_mem
  subst form_eq
  cases physical with
  | hashJoin type build condition => simpa [PhysicalOperator.form, LogicalOperator.canonical,
      PhysicalOperator.canonical] using canonical
  | mergeJoin type condition => simpa [PhysicalOperator.form, LogicalOperator.canonical,
      PhysicalOperator.canonical] using canonical
  | nestedLoopJoin type condition => simpa [PhysicalOperator.form, LogicalOperator.canonical,
      PhysicalOperator.canonical] using canonical
  | _ => rfl

end LogicalOperator

/-- A pattern of a single operator depends on nothing but the expression. -/
theorem Pattern.fits_logical {memo : Memo} {id : ExprId} {expression : Expression}
    (stored : memo.expression? id = some expression) (kind : LogicalKind) (inputs : Nat) :
    (Pattern.logical kind inputs).fits memo id =
      .ok (decide (expression.operator.kind = .logical kind ∧ expression.children.length = inputs)) := by
  have anything : ∀ (count : Nat) (groups : List GroupId),
      fitsAll memo (List.replicate count .any) groups = .ok true := by
    intro count groups
    induction count generalizing groups with
    | zero => simp [fitsAll, pure, Except.pure]
    | succ count ih =>
        cases groups with
        | nil => simp [List.replicate, fitsAll, pure, Except.pure]
        | cons group groups => simpa [List.replicate, fitsAll] using ih groups
  rw [Pattern.logical, fits, Memo.expression, stored]
  simp only [bind, Except.bind, pure, Except.pure, OperatorMatcher.accepts, anything,
    List.length_replicate]
  by_cases kind_eq : expression.operator.kind = .logical kind
  · by_cases length_eq : expression.children.length = inputs
    · simp [kind_eq, length_eq]
    · simp [kind_eq, length_eq]
  · simp [kind_eq]

namespace PhysicalOperator

variable {first second : PhysicalOperator}

theorem form_normal (operator : PhysicalOperator) : operator.normal.form = operator.form.normal := by
  cases operator <;> rfl

theorem eq_of_normal (form_eq : first.form = second.form) (normal_eq : first.normal = second.normal) :
    first = second := by
  cases first <;> cases second <;> simp_all [normal, form]

theorem maker_mem (physical : PhysicalOperator) :
    (physical.maker, physical.rule) ∈ Rules.numberedImplementations := by
  rw [Rules.numberedImplementations_eq]
  cases physical <;> simp [maker, rule]

/-- A rule asks for the operator that its own operators run, and for the right number of inputs. -/
theorem pattern_eq (physical : PhysicalOperator) :
    physical.rule.pattern = .logical physical.form.kind physical.form.arity := by
  cases physical <;> rfl

theorem rule_eq {physical : PhysicalOperator} {rule : Rule}
    (pair_mem : (physical.maker, rule) ∈ Rules.numberedImplementations) : rule = physical.rule :=
  Except.ok.inj ((Rulebook.lookup_implementation pair_mem).symm.trans
    (Rulebook.lookup_implementation physical.maker_mem))

end PhysicalOperator

namespace Rules

variable {memo : Memo} {catalog : Catalog} {expression : Expression} {operator : LogicalOperator}
  {physical : PhysicalOperator} {results : List RuleResult}

/-! ## What implementations give -/

/-- A physical operator that runs the operator of an expression, over its inputs. -/
def Runs (number : RuleId) (expression : Expression) (result : RuleResult) : Prop :=
  ∃ operator physical children, expression.operator = .logical operator ∧
    physical ∈ operator.algorithms ∧ physical.maker = number ∧
      result = .substitution (.physical physical) children ∧
        (children = expression.children ∨ (children = [] ∧ operator.arity = 0))

/-- Physical expressions over the inputs of an expression, or over none. -/
def Implements (expression : Expression) : RuleResult → Prop
  | .substitution operator children =>
      operator.isLogical = false ∧ (children = expression.children ∨ children = [])
  | .nested _ _ => False

theorem Runs.implements {number : RuleId} {result : RuleResult} (runs : Runs number expression result) :
    Implements expression result := by
  rcases runs with ⟨operator, physical, children, -, -, -, rfl, taken⟩
  exact ⟨rfl, taken.imp_right And.left⟩

theorem Implements.grounded {result : RuleResult} (implements : Implements expression result)
    (exist : ∀ child ∈ expression.children, child < memo.groups.size) : result.Grounded memo := by
  cases result with
  | nested operator children => exact implements.elim
  | substitution operator children =>
      rcases implements.2 with rfl | rfl
      · exact exist
      · exact fun child child_mem => (List.not_mem_nil child_mem).elim

theorem Implements.isLogical {result : RuleResult} (implements : Implements expression result) :
    result.operator.isLogical = false := by
  cases result with
  | nested operator children => exact implements.elim
  | substitution operator children => exact implements.1

theorem runs_implementAs {number : RuleId} {operators : List PhysicalOperator}
    (operator_eq : expression.operator = .logical operator)
    (run : ∀ physical ∈ operators, physical ∈ operator.algorithms ∧ physical.maker = number) :
    ∀ result ∈ implementAs expression operators, Runs number expression result := by
  intro result result_mem
  rcases List.mem_map.mp result_mem with ⟨physical, physical_mem, rfl⟩
  exact ⟨operator, physical, _, operator_eq, (run physical physical_mem).1,
    (run physical physical_mem).2, rfl, .inl rfl⟩

theorem unary_runs {name : String} {kind : LogicalKind} {number : RuleId}
    {implement : LogicalOperator → List PhysicalOperator}
    (run : ∀ operator, ∀ physical ∈ implement operator,
      physical ∈ operator.algorithms ∧ physical.maker = number) :
    ∃ results, (unary name kind implement).apply expression memo catalog = .ok (.results results) ∧
      ∀ result ∈ results, Runs number expression result := by
  dsimp only [unary]
  split
  · rename_i operator operator_eq
    exact ⟨_, rfl, runs_implementAs operator_eq (run operator)⟩
  · exact ⟨_, rfl, by simp⟩

/-- An implementation never fails, and gives nothing but operators that run the operator of the
expression. -/
theorem implementation_applies {number : RuleId} {rule : Rule}
    (pair_mem : (number, rule) ∈ numberedImplementations) :
    ∃ results, rule.apply expression memo catalog = .ok (.results results) ∧
      ∀ result ∈ results, Runs number expression result := by
  have join {type : JoinType} {condition : Scalar} {left right : GroupId}
      (join_eq : expression.join? = some (type, condition, left, right)) :
      expression.operator = .logical (.join type condition) := (Expression.join?_eq_some.mp join_eq).1
  simp only [numberedImplementations_eq, List.mem_cons, List.not_mem_nil, or_false,
    Prod.mk.injEq] at pair_mem
  rcases pair_mem with ⟨rfl, rfl⟩ | ⟨rfl, rfl⟩ | ⟨rfl, rfl⟩ | ⟨rfl, rfl⟩ | ⟨rfl, rfl⟩ | ⟨rfl, rfl⟩ |
    ⟨rfl, rfl⟩ | ⟨rfl, rfl⟩ | ⟨rfl, rfl⟩ | ⟨rfl, rfl⟩
  · dsimp only [hashJoin]
    split
    · rename_i join_eq
      refine ⟨_, rfl, ?_⟩
      split
      · rename_i can_hash
        exact runs_implementAs (join join_eq)
          (by simp [LogicalOperator.algorithms, can_hash, PhysicalOperator.maker])
      · simp
    · exact ⟨_, rfl, by simp⟩
  · dsimp only [mergeJoin]
    split
    · rename_i join_eq
      refine ⟨_, rfl, ?_⟩
      split
      · rename_i can_merge
        exact runs_implementAs (join join_eq)
          (by simp [LogicalOperator.algorithms, can_merge, PhysicalOperator.maker])
      · simp
    · exact ⟨_, rfl, by simp⟩
  · dsimp only [nestedLoopJoin]
    split
    · rename_i join_eq
      exact ⟨_, rfl, runs_implementAs (join join_eq)
        (by simp [LogicalOperator.algorithms, PhysicalOperator.maker])⟩
    · exact ⟨_, rfl, by simp⟩
  · dsimp only [seqScan]
    split
    · rename_i table columns predicate operator_eq
      refine ⟨_, rfl, ?_⟩
      intro result result_mem
      rw [List.mem_singleton.mp result_mem]
      exact ⟨_, .seqScan table columns predicate, [], operator_eq, List.mem_cons_self, rfl, rfl,
        .inr ⟨rfl, rfl⟩⟩
    · exact ⟨_, rfl, by simp⟩
  all_goals
    refine unary_runs ?_
    intro operator
    cases operator <;> simp [LogicalOperator.algorithms, PhysicalOperator.maker]

/-- An expression with as many inputs as its operator has, and a physical operator that can run it. -/
structure Runnable (expression : Expression) (physical : PhysicalOperator) : Prop where
  operator : expression.operator = .logical physical.form
  mem : physical ∈ physical.form.algorithms
  arity : expression.children.length = physical.form.arity

theorem runnable_iff : Runnable expression physical ↔ ∃ operator,
    expression.operator = .logical operator ∧
      physical ∈ operator.algorithmsOver expression.children.length := by
  constructor
  · intro runnable
    refine ⟨physical.form, runnable.operator, ?_⟩
    rw [LogicalOperator.algorithmsOver, if_pos runnable.arity]
    exact runnable.mem
  · rintro ⟨operator, operator_eq, physical_mem⟩
    rw [LogicalOperator.algorithmsOver] at physical_mem
    split at physical_mem
    · rename_i arity
      have form_eq := LogicalOperator.form_of_mem physical_mem
      subst form_eq
      exact ⟨operator_eq, physical_mem, arity⟩
    · cases physical_mem

/-- Marks change no algorithms. -/
theorem runnable_marked {applied : RuleSet} :
    Runnable { expression with applied } physical ↔ Runnable expression physical :=
  ⟨fun runnable => ⟨runnable.operator, runnable.mem, runnable.arity⟩,
    fun runnable => ⟨runnable.operator, runnable.mem, runnable.arity⟩⟩

namespace Runnable

variable (runnable : Runnable expression physical)
include runnable

theorem join {type : JoinType} {condition : Scalar} (form_eq : physical.form = .join type condition) :
    ∃ left right, expression.join? = some (type, condition, left, right) ∧
      expression.children = [left, right] := by
  have arity := runnable.arity
  rw [form_eq] at arity
  rcases List.length_eq_two.mp arity with ⟨left, right, children_eq⟩
  exact ⟨left, right, Expression.join?_eq_some.mpr ⟨runnable.operator.trans (by rw [form_eq]),
    children_eq⟩, children_eq⟩

theorem gives : ∃ results, physical.rule.apply expression memo catalog = .ok (.results results) ∧
    .substitution (.physical physical) expression.children ∈ results := by
  have operator_eq := runnable.operator
  have mem := runnable.mem
  cases physical with
  | hashJoin type build condition =>
      rcases runnable.join rfl with ⟨left, right, join_eq, -⟩
      have can_hash : canHash type condition = true := by
        by_contra cannot
        simp [PhysicalOperator.form, LogicalOperator.algorithms, cannot] at mem
      refine ⟨_, by simp [PhysicalOperator.rule, hashJoin, join_eq, can_hash]; rfl, ?_⟩
      cases build <;> simp [implementAs]
  | mergeJoin type condition =>
      rcases runnable.join rfl with ⟨left, right, join_eq, -⟩
      have can_merge : canMerge type condition = true := by
        by_contra cannot
        simp [PhysicalOperator.form, LogicalOperator.algorithms, cannot] at mem
      have inner : type = .inner := by
        simp only [canMerge, Bool.and_eq_true, beq_iff_eq] at can_merge
        exact can_merge.2
      subst inner
      exact ⟨_, by simp [PhysicalOperator.rule, mergeJoin, join_eq, can_merge]; rfl,
        by simp [implementAs]⟩
  | nestedLoopJoin type condition =>
      rcases runnable.join rfl with ⟨left, right, join_eq, -⟩
      exact ⟨_, by simp [PhysicalOperator.rule, nestedLoopJoin, join_eq]; rfl, by simp [implementAs]⟩
  | seqScan table columns predicate =>
      have none : expression.children = [] := List.length_eq_zero_iff.mp runnable.arity
      refine ⟨_, by simp only [PhysicalOperator.rule, seqScan, operator_eq]; rfl, ?_⟩
      simp [none]
  | _ =>
      refine ⟨_, by simp only [PhysicalOperator.rule, hashAggregate, streamAggregate, sort, filter,
        project, limit, unary, operator_eq]; rfl, ?_⟩
      simp [implementAs, PhysicalOperator.form]

theorem promises : ∃ promise, physical.rule.promise expression memo catalog = .ok promise ∧
    promise ≠ .none := by
  have mem := runnable.mem
  cases physical with
  | hashJoin type build condition =>
      rcases runnable.join rfl with ⟨left, right, join_eq, -⟩
      simp only [PhysicalOperator.rule, hashJoin, join_eq]
      refine ⟨_, rfl, ?_⟩
      by_cases equi : condition.hasEquality = true
      · simp [equi]
      · by_cases cross : type = .cross
        · simp [equi, cross]
        · simp [PhysicalOperator.form, LogicalOperator.algorithms, canHash, equi, cross] at mem
  | mergeJoin type condition =>
      rcases runnable.join rfl with ⟨left, right, join_eq, -⟩
      simp only [PhysicalOperator.rule, mergeJoin, join_eq]
      refine ⟨_, rfl, ?_⟩
      by_cases can_merge : canMerge type condition = true
      · simp [can_merge]
      · simp [PhysicalOperator.form, LogicalOperator.algorithms, can_merge] at mem
  | nestedLoopJoin type condition =>
      rcases runnable.join rfl with ⟨left, right, join_eq, -⟩
      simp only [PhysicalOperator.rule, nestedLoopJoin, join_eq]
      refine ⟨_, rfl, ?_⟩
      split <;> simp
  | _ => exact ⟨.medium, rfl, by simp⟩

theorem fits {id : ExprId} (stored : memo.expression? id = some expression) :
    physical.rule.pattern.fits memo id = .ok true := by
  rw [physical.pattern_eq, Pattern.fits_logical stored, runnable.arity, runnable.operator]
  simp [Operator.kind]

end Runnable

/-- An implementation is only applied to expressions with as many inputs as its operators have. -/
theorem runnable_of_fits {id : ExprId} (stored : memo.expression? id = some expression)
    (operator_eq : expression.operator = .logical operator) (mem : physical ∈ operator.algorithms)
    (fits : physical.rule.pattern.fits memo id = .ok true) : Runnable expression physical := by
  have form_eq := LogicalOperator.form_of_mem mem
  subst form_eq
  rw [physical.pattern_eq, Pattern.fits_logical stored] at fits
  simp only [Except.ok.injEq, decide_eq_true_eq] at fits
  exact ⟨operator_eq, mem, fits.2⟩

end Rules

end Cascades
