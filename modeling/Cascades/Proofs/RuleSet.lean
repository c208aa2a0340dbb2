import Cascades.RuleSet
import Mathlib.Data.Nat.Bitwise

/-!
# Sets of rules as sets

A rule is a member if the bit at its place is set. Words that are missing have no bits, so adding a
rule to a set changes the membership of no other one.
-/

namespace Cascades

namespace RuleSet

/-- The bit at a place of a list of words, in which missing words count as zero. -/
def bitAt (words : List UInt64) (position bit : Nat) : Bool :=
  (words.getD position 0).toNat.testBit bit

theorem toNat_shift {bit : Nat} (small : bit < 64) :
    (1 <<< UInt64.ofNat bit : UInt64).toNat = 2 ^ bit := by
  have bound : 2 ^ bit < 2 ^ 64 := Nat.pow_lt_pow_right (by decide) small
  rw [UInt64.toNat_shiftLeft, UInt64.toNat_ofNat_of_lt' (Nat.lt_trans small (by decide)),
    Nat.mod_eq_of_lt small, UInt64.toNat_one, Nat.one_shiftLeft, Nat.mod_eq_of_lt bound]

theorem meets_shift (word : UInt64) {bit : Nat} (small : bit < 64) :
    meets word (1 <<< UInt64.ofNat bit) = word.toNat.testBit bit := by
  have zero_iff : word &&& (1 <<< UInt64.ofNat bit) = 0 ↔ word.toNat.testBit bit = false := by
    rw [← UInt64.toNat_inj, UInt64.toNat_and, toNat_shift small, Nat.and_two_pow]
    cases word.toNat.testBit bit <;> simp
  rw [meets]
  cases found : word.toNat.testBit bit with
  | false => simpa using zero_iff.mpr found
  | true =>
      rw [bne_iff_ne]
      intro none
      simp [zero_iff.mp none] at found

theorem contains_eq (set : RuleSet) (id : RuleId) :
    set.contains id = bitAt set.words (wordOf id) (id.toNat % 64) := by
  rw [contains, bitAt, List.getD_eq_getElem?_getD]
  cases set.words[wordOf id]? with
  | none => simp
  | some word => exact meets_shift word (Nat.mod_lt _ (by decide))

theorem bitAt_padded (words : List UInt64) (length position bit : Nat) :
    bitAt (padded words length) position bit = bitAt words position bit := by
  simp only [bitAt, padded, List.getD_eq_getElem?_getD, List.getElem?_append,
    List.getElem?_replicate]
  split
  · rfl
  · rename_i beyond
    rw [List.getElem?_eq_none (Nat.le_of_not_lt beyond)]
    split <;> rfl

theorem bitAt_modify {words : List UInt64} {place : Nat} (inside : place < words.length)
    {added : Nat} (added_small : added < 64) (position bit : Nat) :
    bitAt (words.modify place (· ||| 1 <<< UInt64.ofNat added)) position bit =
      (bitAt words position bit || decide (position = place ∧ bit = added)) := by
  simp only [bitAt, List.getD_eq_getElem?_getD, List.getElem?_modify]
  by_cases here : place = position
  · subst here
    rw [List.getElem?_eq_getElem inside, Option.map_eq_map, Option.map_some, Option.getD_some,
      Option.getD_some, if_pos rfl, UInt64.toNat_or, Nat.testBit_or, toNat_shift added_small,
      Nat.testBit_two_pow]
    simp [eq_comm]
  · simp [here, Ne.symm here]

/-- Adding a rule makes it a member and leaves all others as they were. -/
theorem contains_insert (set : RuleSet) (added id : RuleId) :
    (set.insert added).contains id = (set.contains id || id == added) := by
  have inside : wordOf added < (padded set.words (wordOf added + 1)).length := by
    simp only [padded, List.length_append, List.length_replicate]
    omega
  rw [contains_eq, contains_eq, insert, bitOf,
    bitAt_modify inside (Nat.mod_lt _ (by decide)), bitAt_padded]
  congr 1
  rw [Bool.eq_iff_iff, decide_eq_true_iff, beq_iff_eq, ← UInt16.toNat_inj, wordOf, wordOf]
  omega

@[simp]
theorem contains_empty (id : RuleId) : RuleSet.empty.contains id = false := by
  simp [contains, RuleSet.empty]

theorem contains_intersection (left right : RuleSet) (id : RuleId) :
    (left.intersection right).contains id = (left.contains id && right.contains id) := by
  simp only [contains_eq, intersection, bitAt, List.getD_eq_getElem?_getD, List.getElem?_zipWith']
  cases left.words[wordOf id]? <;> cases right.words[wordOf id]? <;>
    simp [UInt64.toNat_and, Nat.testBit_and]

theorem contains_union (left right : RuleSet) (id : RuleId) :
    (left.union right).contains id = (left.contains id || right.contains id) := by
  have bitAt_union (lefts rights : List UInt64) (position bit : Nat) :
      bitAt (unionWords lefts rights) position bit =
        (bitAt lefts position bit || bitAt rights position bit) := by
    induction lefts generalizing rights position with
    | nil => simp [unionWords, bitAt]
    | cons word rest ih =>
        cases rights with
        | nil => simp [unionWords, bitAt]
        | cons other others =>
            cases position with
            | zero => simp [unionWords, bitAt, UInt64.toNat_or, Nat.testBit_or]
            | succ position => simpa [unionWords, bitAt] using ih others position
  rw [contains_eq, contains_eq, contains_eq, union, bitAt_union]

/-! ## Lists of members -/

/-- The sets whose words are all named by the number of some rule. -/
def Bounded (set : RuleSet) : Prop :=
  set.words.length ≤ 1024

theorem wordOf_lt (id : RuleId) : wordOf id < 1024 := by
  have bound := id.toNat_lt
  rw [wordOf]
  omega

theorem bounded_empty : RuleSet.empty.Bounded :=
  Nat.zero_le _

theorem Bounded.insert {set : RuleSet} (bounded : set.Bounded) (id : RuleId) :
    (set.insert id).Bounded := by
  have place := wordOf_lt id
  rw [Bounded] at bounded ⊢
  simp only [RuleSet.insert, padded, List.length_modify, List.length_append, List.length_replicate]
  omega

theorem Bounded.intersection {left : RuleSet} (bounded : left.Bounded) (right : RuleSet) :
    (left.intersection right).Bounded := by
  rw [Bounded] at bounded ⊢
  simp only [RuleSet.intersection, List.length_zipWith]
  omega

theorem mem_rulesOf {position : Nat} (small : position < 1024) {word : UInt64} {id : RuleId} :
    id ∈ rulesOf position word ↔
      wordOf id = position ∧ word.toNat.testBit (id.toNat % 64) = true := by
  simp only [rulesOf, List.mem_map, List.mem_filter, List.mem_range]
  constructor
  · rintro ⟨bit, ⟨bit_lt, isSet⟩, rfl⟩
    have value : (UInt16.ofNat (position * 64 + bit)).toNat = position * 64 + bit :=
      UInt16.toNat_ofNat_of_lt' (by simp [UInt16.size]; omega)
    rw [meets_shift word bit_lt] at isSet
    have place : (position * 64 + bit) % 64 = bit := by omega
    rw [wordOf, value, place]
    exact ⟨by omega, isSet⟩
  · rintro ⟨rfl, isSet⟩
    have bit_lt : id.toNat % 64 < 64 := Nat.mod_lt _ (by decide)
    refine ⟨id.toNat % 64, ⟨bit_lt, by rwa [meets_shift word bit_lt]⟩, ?_⟩
    have whole : wordOf id * 64 + id.toNat % 64 = id.toNat := by
      rw [wordOf]
      omega
    rw [whole, UInt16.ofNat_toNat]

theorem mem_rulesFrom {position : Nat} {words : List UInt64} (small : position + words.length ≤ 1024)
    {id : RuleId} : id ∈ rulesFrom position words ↔
      position ≤ wordOf id ∧ bitAt words (wordOf id - position) (id.toNat % 64) = true := by
  induction words generalizing position with
  | nil => simp [rulesFrom, bitAt]
  | cons word rest ih =>
      rw [List.length_cons] at small
      rw [rulesFrom, List.mem_append, mem_rulesOf (by omega), ih (by omega)]
      rcases Nat.lt_trichotomy (wordOf id) position with before | here | after
      · simp [Nat.ne_of_lt before, Nat.not_le_of_lt before, Nat.not_le_of_lt (Nat.lt_succ_of_lt before)]
      · simp [here, bitAt]
      · have place : wordOf id - position = (wordOf id - (position + 1)) + 1 := by omega
        simp only [bitAt, place, List.getD_cons_succ, Nat.ne_of_gt after, false_and, false_or]
        exact and_congr_left fun _ => ⟨fun _ => Nat.le_of_lt after, fun _ => after⟩

/-- The list of a set has exactly its members. -/
theorem mem_toList {set : RuleSet} (bounded : set.Bounded) {id : RuleId} :
    id ∈ set.toList ↔ set.contains id = true := by
  have short : 0 + set.words.length ≤ 1024 := (Nat.zero_add _).symm ▸ bounded
  rw [toList, mem_rulesFrom short, contains_eq]
  simp

end RuleSet

end Cascades
