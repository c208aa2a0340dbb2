import Cascades.Proofs.RuleSet
import Mathlib.Data.Finset.Card
import Mathlib.Logic.Function.Basic

/-!
# Sets of rules after any calls

Sets of rules are kept under names, and calls add and remove rules and combine sets. Whatever has been
called, a set answers as the finite set of its members would: about each number, about how many there
are, and in the list of them, which ascends. No set ever has a word whose bits no number names, so the
list never narrows the place of a bit.
-/

namespace Cascades

namespace RuleSet

/-! ## What operations do to the members -/

theorem insertNew_eq (set : RuleSet) (id : RuleId) :
    set.insertNew id = (set.insert id, !set.contains id) := by
  have same : bitAt (padded set.words (wordOf id + 1)) (wordOf id) (id.toNat % 64) =
      bitAt set.words (wordOf id) (id.toNat % 64) := bitAt_padded _ _ _ _
  have padded_contains := contains_eq ⟨padded set.words (wordOf id + 1)⟩ id
  rw [same, ← contains_eq] at padded_contains
  rw [← padded_contains]
  rfl

theorem bitAt_clear (words : List UInt64) (place : Nat) {removed : Nat} (removed_small : removed < 64)
    (position : Nat) {bit : Nat} (bit_small : bit < 64) :
    bitAt (words.modify place (· &&& ~~~(1 <<< UInt64.ofNat removed))) position bit =
      (bitAt words position bit && !decide (position = place ∧ bit = removed)) := by
  have bound : 2 ^ removed < 2 ^ 64 := Nat.pow_lt_pow_right (by decide) removed_small
  have cleared : (~~~(1 <<< UInt64.ofNat removed) : UInt64).toNat = 2 ^ 64 - (2 ^ removed + 1) := by
    rw [UInt64.toNat_not, toNat_shift removed_small, UInt64.size]
    omega
  simp only [bitAt, List.getD_eq_getElem?_getD, List.getElem?_modify]
  by_cases here : place = position
  · subst here
    cases words[place]? with
    | none => simp
    | some word =>
        rw [Option.map_eq_map, Option.map_some, Option.getD_some, Option.getD_some, if_pos rfl,
          UInt64.toNat_and, cleared, Nat.testBit_and, Nat.testBit_two_pow_sub_succ bound,
          Nat.testBit_two_pow]
        simp [bit_small, eq_comm]
  · simp [here, Ne.symm here]

/-- Removing a rule leaves all others as they were. -/
theorem contains_remove (set : RuleSet) (removed id : RuleId) :
    (set.remove removed).contains id = (set.contains id && id != removed) := by
  rw [contains_eq, contains_eq, remove, bitOf,
    bitAt_clear _ _ (Nat.mod_lt _ (by decide)) _ (Nat.mod_lt _ (by decide))]
  congr 1
  rw [bne, ← Bool.not_inj_iff, Bool.not_not, Bool.not_not, Bool.eq_iff_iff, decide_eq_true_iff,
    beq_iff_eq, ← UInt16.toNat_inj, wordOf, wordOf]
  omega

theorem contains_foldl_insert (ids : List RuleId) (set : RuleSet) (id : RuleId) :
    (ids.foldl insert set).contains id = (set.contains id || decide (id ∈ ids)) := by
  induction ids generalizing set with
  | nil => simp
  | cons first rest ih =>
      rw [List.foldl_cons, ih, contains_insert]
      simp [Bool.or_assoc, beq_eq_decide]

/-! ## Words that numbers name -/

theorem Bounded.remove {set : RuleSet} (bounded : set.Bounded) (id : RuleId) :
    (set.remove id).Bounded := by
  simpa [Bounded, RuleSet.remove] using bounded

theorem length_unionWords (lefts rights : List UInt64) :
    (unionWords lefts rights).length = max lefts.length rights.length := by
  induction lefts generalizing rights with
  | nil => simp [unionWords]
  | cons left lefts ih =>
      cases rights with
      | nil => simp [unionWords]
      | cons right rights => simp [unionWords, ih]

theorem Bounded.union {left right : RuleSet} (left_bounded : left.Bounded)
    (right_bounded : right.Bounded) : (left.union right).Bounded := by
  rw [Bounded] at left_bounded right_bounded ⊢
  rw [RuleSet.union, length_unionWords]
  omega

theorem Bounded.foldl_insert {set : RuleSet} (bounded : set.Bounded) (ids : List RuleId) :
    (ids.foldl RuleSet.insert set).Bounded := by
  induction ids generalizing set with
  | nil => exact bounded
  | cons first rest ih => exact ih (bounded.insert first)

/-! ## Places of bits -/

/-- The places of the bits of one word, in ascending order. -/
def placesOf (position : Nat) (word : UInt64) : List Nat :=
  ((List.range 64).filter fun bit => meets word (1 <<< UInt64.ofNat bit)).map fun bit =>
    position * 64 + bit

/-- The places of the bits of the words from a position on, in ascending order. -/
def placesFrom (position : Nat) : List UInt64 → List Nat
  | [] => []
  | word :: rest => placesOf position word ++ placesFrom (position + 1) rest

theorem rulesFrom_eq_map (position : Nat) (words : List UInt64) :
    rulesFrom position words = (placesFrom position words).map UInt16.ofNat := by
  induction words generalizing position with
  | nil => rfl
  | cons word rest ih =>
      rw [rulesFrom, placesFrom, List.map_append, ← ih, placesOf, List.map_map]
      rfl

theorem bounds_of_mem_placesOf {position place : Nat} {word : UInt64}
    (place_mem : place ∈ placesOf position word) :
    position * 64 ≤ place ∧ place < (position + 1) * 64 := by
  simp only [placesOf, List.mem_map, List.mem_filter, List.mem_range] at place_mem
  rcases place_mem with ⟨bit, ⟨bit_lt, -⟩, rfl⟩
  omega

theorem bounds_of_mem_placesFrom {position place : Nat} {words : List UInt64}
    (place_mem : place ∈ placesFrom position words) :
    position * 64 ≤ place ∧ place < (position + words.length) * 64 := by
  induction words generalizing position with
  | nil => cases place_mem
  | cons word rest ih =>
      rw [List.length_cons]
      rcases List.mem_append.mp place_mem with here | later
      · have bounds := bounds_of_mem_placesOf here
        omega
      · have bounds := ih later
        omega

theorem sorted_placesFrom (position : Nat) (words : List UInt64) :
    (placesFrom position words).Pairwise (· < ·) := by
  induction words generalizing position with
  | nil => exact List.Pairwise.nil
  | cons word rest ih =>
      have sorted : (placesOf position word).Pairwise (· < ·) := by
        rw [placesOf, List.pairwise_map]
        apply List.Pairwise.filter
        apply List.pairwise_lt_range.imp
        omega
      rw [placesFrom, List.pairwise_append]
      refine ⟨sorted, ih (position + 1), ?_⟩
      intro here here_mem later later_mem
      have here_bounds := bounds_of_mem_placesOf here_mem
      have later_bounds := bounds_of_mem_placesFrom later_mem
      omega

/-- The place of every bit is the number of a rule. -/
theorem toNat_toList {set : RuleSet} (bounded : set.Bounded) :
    set.toList.map UInt16.toNat = placesFrom 0 set.words := by
  have unwrapped : ∀ place ∈ placesFrom 0 set.words, (UInt16.ofNat place).toNat = place := by
    intro place place_mem
    have bounds := bounds_of_mem_placesFrom place_mem
    rw [Bounded] at bounded
    apply UInt16.toNat_ofNat_of_lt'
    rw [UInt16.size]
    omega
  rw [toList, rulesFrom_eq_map, List.map_map]
  exact (List.map_congr_left unwrapped).trans (List.map_id _)

theorem sorted_toList {set : RuleSet} (bounded : set.Bounded) : set.toList.Pairwise (· < ·) := by
  have sorted := sorted_placesFrom 0 set.words
  rw [← toNat_toList bounded, List.pairwise_map] at sorted
  exact sorted.imp UInt16.lt_iff_toNat_lt.mpr

theorem size_eq_length (set : RuleSet) : set.size = set.toList.length := by
  have counted (position : Nat) (words : List UInt64) :
      words.foldr (fun word count => countBits word + count) 0 =
        (rulesFrom position words).length := by
    induction words generalizing position with
    | nil => rfl
    | cons word rest ih =>
        rw [List.foldr_cons, rulesFrom, List.length_append, ih (position + 1), rulesOf,
          List.length_map, countBits]
  exact counted 0 set.words

theorem eq_zero_of_testBit {word : UInt64}
    (unset : ∀ bit, bit < 64 → word.toNat.testBit bit = false) : word = 0 := by
  rw [← UInt64.toNat_inj, UInt64.toNat_zero]
  apply Nat.eq_of_testBit_eq
  intro bit
  rw [Nat.zero_testBit]
  rcases Nat.lt_or_ge bit 64 with small | large
  · exact unset bit small
  · apply Nat.testBit_eq_false_of_lt
    calc
      word.toNat < 2 ^ 64 := word.toNat_lt
      _ ≤ 2 ^ bit := Nat.pow_le_pow_right (by decide) large

/-- A set is empty if all its words are zero, since every bit of them is that of some rule. -/
theorem isEmpty_iff {set : RuleSet} (bounded : set.Bounded) :
    set.isEmpty = true ↔ ∀ id, set.contains id = false := by
  rw [isEmpty, List.all_eq_true]
  constructor
  · intro zeros id
    rw [contains]
    split
    · rename_i word word_eq
      have zero := zeros word (List.mem_of_getElem? word_eq)
      rw [beq_iff_eq] at zero
      simp [zero, meets]
    · rfl
  · intro absent word word_mem
    rw [beq_iff_eq]
    rcases List.getElem?_of_mem word_mem with ⟨position, word_eq⟩
    have position_lt : position < 1024 :=
      Nat.lt_of_lt_of_le (List.getElem?_eq_some_iff.mp word_eq).1 bounded
    apply eq_zero_of_testBit
    intro bit bit_lt
    have value : (UInt16.ofNat (position * 64 + bit)).toNat = position * 64 + bit := by
      apply UInt16.toNat_ofNat_of_lt'
      rw [UInt16.size]
      omega
    have unset := absent (UInt16.ofNat (position * 64 + bit))
    have place : (position * 64 + bit) / 64 = position := by omega
    have rest : (position * 64 + bit) % 64 = bit := by omega
    rwa [contains_eq, wordOf, value, place, rest, bitAt, List.getD_eq_getElem?_getD, word_eq,
      Option.getD_some] at unset

/-! ## Sets and their members -/

/-- A set has some members and no others, and no words beyond them all. -/
structure Represents (set : RuleSet) (members : Finset RuleId) : Prop where
  bounded : set.Bounded
  contains_iff : ∀ id, set.contains id = true ↔ id ∈ members

namespace Represents

variable {set left right : RuleSet} {members lefts rights : Finset RuleId}

theorem empty : Represents .empty ∅ :=
  ⟨bounded_empty, by simp⟩

theorem insertNew (represents : set.Represents members) (id : RuleId) :
    (set.insertNew id).1.Represents (Insert.insert id members) := by
  rw [insertNew_eq]
  refine ⟨represents.bounded.insert id, fun other => ?_⟩
  rw [contains_insert, Bool.or_eq_true, represents.contains_iff, beq_iff_eq, Finset.mem_insert,
    or_comm]

theorem remove (represents : set.Represents members) (id : RuleId) :
    (set.remove id).Represents (members.erase id) := by
  refine ⟨represents.bounded.remove id, fun other => ?_⟩
  rw [contains_remove, Bool.and_eq_true, represents.contains_iff, bne_iff_ne, Finset.mem_erase,
    and_comm]

theorem union (left_represents : left.Represents lefts) (right_represents : right.Represents rights) :
    (left.union right).Represents (lefts ∪ rights) := by
  refine ⟨left_represents.bounded.union right_represents.bounded, fun id => ?_⟩
  rw [contains_union, Bool.or_eq_true, left_represents.contains_iff, right_represents.contains_iff,
    Finset.mem_union]

theorem intersection (left_represents : left.Represents lefts)
    (right_represents : right.Represents rights) :
    (left.intersection right).Represents (lefts ∩ rights) := by
  refine ⟨left_represents.bounded.intersection right, fun id => ?_⟩
  rw [contains_intersection, Bool.and_eq_true, left_represents.contains_iff,
    right_represents.contains_iff, Finset.mem_inter]

theorem ofList (ids : List RuleId) : (RuleSet.ofList ids).Represents ids.toFinset := by
  refine ⟨bounded_empty.foldl_insert ids, fun id => ?_⟩
  rw [RuleSet.ofList, contains_foldl_insert]
  simp

end Represents

/-- What can be asked of a set is answered as by the set of its members. -/
structure Answers (set : RuleSet) (members : Finset RuleId) : Prop where
  contains : ∀ id, set.contains id = decide (id ∈ members)
  isNew : ∀ id, (set.insertNew id).2 = decide (id ∉ members)
  size : set.size = members.card
  isEmpty : set.isEmpty = decide (members = ∅)
  mem_toList : ∀ id, id ∈ set.toList ↔ id ∈ members
  ascending : set.toList.Pairwise (· < ·)
  unwrapped : set.toList.map UInt16.toNat = placesFrom 0 set.words

theorem Represents.answers {set : RuleSet} {members : Finset RuleId}
    (represents : set.Represents members) : set.Answers members := by
  have contains (id : RuleId) : set.contains id = decide (id ∈ members) := by
    rw [Bool.eq_iff_iff, represents.contains_iff, decide_eq_true_iff]
  have mem_list (id : RuleId) : id ∈ set.toList ↔ id ∈ members := by
    rw [mem_toList represents.bounded, represents.contains_iff]
  have sorted := sorted_toList represents.bounded
  refine ⟨contains, ?_, ?_, ?_, mem_list, sorted, toNat_toList represents.bounded⟩
  · intro id
    rw [insertNew_eq, contains, decide_not]
  · have nodup : set.toList.Nodup := sorted.imp UInt16.ne_of_lt
    have members_eq : set.toList.toFinset = members := by
      ext id
      rw [List.mem_toFinset, mem_list]
    rw [size_eq_length, ← members_eq, List.toFinset_card_of_nodup nodup]
  · rw [Bool.eq_iff_iff, isEmpty_iff represents.bounded, decide_eq_true_iff,
      Finset.eq_empty_iff_forall_notMem]
    simp only [contains, decide_eq_false_iff_not]

/-! ## Calls -/

/-- A call on sets of rules that are kept under names. Its outcome is kept under the first name. -/
inductive Call where
  | insert (name : String) (id : RuleId)
  | remove (name : String) (id : RuleId)
  | union (name left right : String)
  | intersection (name left right : String)
  | collect (name : String) (ids : List RuleId)

namespace Call

/-- The sets after a call. -/
def perform (sets : String → RuleSet) : Call → String → RuleSet
  | .insert name id => Function.update sets name ((sets name).insertNew id).1
  | .remove name id => Function.update sets name ((sets name).remove id)
  | .union name left right => Function.update sets name ((sets left).union (sets right))
  | .intersection name left right =>
      Function.update sets name ((sets left).intersection (sets right))
  | .collect name ids => Function.update sets name (.ofList ids)

/-- The members after a call. -/
def meaning (members : String → Finset RuleId) : Call → String → Finset RuleId
  | .insert name id => Function.update members name (Insert.insert id (members name))
  | .remove name id => Function.update members name ((members name).erase id)
  | .union name left right => Function.update members name (members left ∪ members right)
  | .intersection name left right => Function.update members name (members left ∩ members right)
  | .collect name ids => Function.update members name ids.toFinset

end Call

/-- The sets after calls, all of them empty at first. -/
def history (calls : List Call) : String → RuleSet :=
  calls.foldl Call.perform fun _ => .empty

/-- The members after calls, none at first. -/
def membersAfter (calls : List Call) : String → Finset RuleId :=
  calls.foldl Call.meaning fun _ => ∅

section Calls

variable {sets : String → RuleSet} {members : String → Finset RuleId}

theorem represents_update (represent : ∀ name, (sets name).Represents (members name)) {set : RuleSet}
    {others : Finset RuleId} (changed : set.Represents others) (target name : String) :
    (Function.update sets target set name).Represents
      (Function.update members target others name) := by
  by_cases here : name = target
  · subst here
    rwa [Function.update_self, Function.update_self]
  · rw [Function.update_of_ne here, Function.update_of_ne here]
    exact represent name

/-- A call does to the sets what it means for their members. -/
theorem represents_perform (represent : ∀ name, (sets name).Represents (members name)) (call : Call)
    (name : String) : (call.perform sets name).Represents (call.meaning members name) := by
  cases call with
  | insert target id => exact represents_update represent ((represent target).insertNew id) target name
  | remove target id => exact represents_update represent ((represent target).remove id) target name
  | union target left right =>
      exact represents_update represent ((represent left).union (represent right)) target name
  | intersection target left right =>
      exact represents_update represent ((represent left).intersection (represent right)) target name
  | collect target ids => exact represents_update represent (.ofList ids) target name

theorem represents_foldl (represent : ∀ name, (sets name).Represents (members name))
    (calls : List Call) (name : String) :
    (calls.foldl Call.perform sets name).Represents (calls.foldl Call.meaning members name) := by
  induction calls generalizing sets members with
  | nil => exact represent name
  | cons call rest ih => exact ih fun name => represents_perform represent call name

end Calls

/--
Whatever calls have been made, a set answers as the mathematical set of its members does: it contains
them and nothing else, tells that a rule is new if it is not one of them, counts them, is empty if
there are none, and lists each of them once in ascending order, by numbers that are never narrowed.
-/
theorem history_faithful (calls : List Call) (name : String) :
    (history calls name).Answers (membersAfter calls name) :=
  (represents_foldl (fun _ => .empty) calls name).answers

end RuleSet

end Cascades
