/-!
# Sets of rules

Rules are numbered from zero to 65535, and a set of them is a list of 64-bit words: bit `b` of word
`w` tells whether rule `64 * w + b` belongs to the set. Words after the last one count as zero. Sets
are compared by their words, so a set that once held a larger number can differ from one that never
did although both have the same members.
-/

namespace Cascades

/-- The number of a rule. -/
abbrev RuleId := UInt16

/-- The name of a rule by its number. -/
def RuleId.text (id : RuleId) : String :=
  "r" ++ toString id.toNat

/-- A set of rules, as words of 64 bits. -/
structure RuleSet where
  words : List UInt64
deriving DecidableEq

namespace RuleSet

/-- The set of no rules. -/
def empty : RuleSet := ⟨[]⟩

/-- The word that holds the bit of a rule. -/
def wordOf (id : RuleId) : Nat := id.toNat / 64

/-- The word with only the bit of a rule set. -/
def bitOf (id : RuleId) : UInt64 := 1 <<< UInt64.ofNat (id.toNat % 64)

/-- Whether a word has a bit of the mask. -/
def meets (word mask : UInt64) : Bool := word &&& mask != 0

/-- Whether a rule is in the set. Beyond the last word there are none. -/
def contains (set : RuleSet) (id : RuleId) : Bool :=
  match set.words[wordOf id]? with
  | some word => meets word (bitOf id)
  | none => false

/-- The words, followed by as many zero words as are needed to reach a length. -/
def padded (words : List UInt64) (length : Nat) : List UInt64 :=
  words ++ List.replicate (length - words.length) 0

/-- Adds a rule, with as many words as its bit needs. -/
def insert (set : RuleSet) (id : RuleId) : RuleSet :=
  ⟨(padded set.words (wordOf id + 1)).modify (wordOf id) (· ||| bitOf id)⟩

/-- Adds a rule, and tells whether it is new. There is a word for its bit before the bit is read. -/
def insertNew (set : RuleSet) (id : RuleId) : RuleSet × Bool :=
  let words := padded set.words (wordOf id + 1)
  let present :=
    match words[wordOf id]? with
    | some word => meets word (bitOf id)
    | none => false
  (⟨words.modify (wordOf id) (· ||| bitOf id)⟩, !present)

/-- Removes a rule. The words stay, even if they are zero then. -/
def remove (set : RuleSet) (id : RuleId) : RuleSet :=
  ⟨set.words.modify (wordOf id) (· &&& ~~~bitOf id)⟩

/-- The words combined place by place, up to the end of the longer list. -/
def unionWords : List UInt64 → List UInt64 → List UInt64
  | [], rights => rights
  | lefts, [] => lefts
  | left :: lefts, right :: rights => (left ||| right) :: unionWords lefts rights

/-- The rules of both sets. -/
def union (left right : RuleSet) : RuleSet :=
  ⟨unionWords left.words right.words⟩

/-- The rules that both sets have. -/
def intersection (left right : RuleSet) : RuleSet :=
  ⟨List.zipWith (· &&& ·) left.words right.words⟩

/-- The rules of one word, in ascending order. -/
def rulesOf (position : Nat) (word : UInt64) : List RuleId :=
  ((List.range 64).filter fun bit => meets word (1 <<< UInt64.ofNat bit)).map fun bit =>
    UInt16.ofNat (position * 64 + bit)

/-- The rules of the words from a position on, in ascending order. -/
def rulesFrom (position : Nat) : List UInt64 → List RuleId
  | [] => []
  | word :: rest => rulesOf position word ++ rulesFrom (position + 1) rest

/-- The members in ascending order. -/
def toList (set : RuleSet) : List RuleId :=
  rulesFrom 0 set.words

/-- The set of the rules of a list. -/
def ofList (ids : List RuleId) : RuleSet :=
  ids.foldl insert empty

/-- The number of members of one word. -/
def countBits (word : UInt64) : Nat :=
  ((List.range 64).filter fun bit => meets word (1 <<< UInt64.ofNat bit)).length

/-- The number of members. -/
def size (set : RuleSet) : Nat :=
  set.words.foldr (fun word count => countBits word + count) 0

/-- Whether no rule is in the set, however many words it has. -/
def isEmpty (set : RuleSet) : Bool :=
  set.words.all (· == 0)

end RuleSet

end Cascades
