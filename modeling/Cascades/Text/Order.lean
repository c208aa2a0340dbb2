/-!
# Order of texts

Texts are ordered by the code points of their characters: the first difference decides, and a text
comes before its continuations. The order is total, so it can serve as a sort key.
-/

namespace Cascades

namespace Text

/-- Whether the first sequence of characters comes no later than the second. -/
def charsLe : List Char → List Char → Bool
  | [], _ => true
  | _ :: _, [] => false
  | left :: lefts, right :: rights =>
      decide (left.toNat < right.toNat) || (left == right && charsLe lefts rights)

/-- Whether the first text comes no later than the second. -/
def le (left right : String) : Bool :=
  charsLe left.toList right.toList

@[simp]
theorem charsLe_refl (text : List Char) : charsLe text text = true := by
  induction text with
  | nil => rfl
  | cons character rest ih => simp [charsLe, ih]

theorem charsLe_total (left right : List Char) :
    charsLe left right = true ∨ charsLe right left = true := by
  induction left generalizing right with
  | nil => simp [charsLe]
  | cons character rest ih =>
      cases right with
      | nil => simp [charsLe]
      | cons other others =>
          rcases Nat.lt_trichotomy character.toNat other.toNat with before | same | after
          · simp [charsLe, before]
          · simpa [charsLe, Char.toNat_inj.mp same] using ih others
          · simp [charsLe, after]

theorem charsLe_trans {left middle right : List Char} (first : charsLe left middle = true)
    (second : charsLe middle right = true) : charsLe left right = true := by
  induction left generalizing middle right with
  | nil => rfl
  | cons character rest ih =>
      cases middle with
      | nil => simp [charsLe] at first
      | cons other others =>
          cases right with
          | nil => simp [charsLe] at second
          | cons third thirds =>
              simp only [charsLe, Bool.or_eq_true, Bool.and_eq_true, decide_eq_true_eq,
                beq_iff_eq] at first second ⊢
              rcases first with before | ⟨rfl, tailFirst⟩ <;>
                rcases second with later | ⟨rfl, tailSecond⟩
              · exact Or.inl (Nat.lt_trans before later)
              · exact Or.inl before
              · exact Or.inl later
              · exact Or.inr ⟨rfl, ih tailFirst tailSecond⟩

theorem charsLe_antisymm {left right : List Char} (first : charsLe left right = true)
    (second : charsLe right left = true) : left = right := by
  induction left generalizing right with
  | nil =>
      cases right with
      | nil => rfl
      | cons other others => simp [charsLe] at second
  | cons character rest ih =>
      cases right with
      | nil => simp [charsLe] at first
      | cons other others =>
          simp only [charsLe, Bool.or_eq_true, Bool.and_eq_true, decide_eq_true_eq,
            beq_iff_eq] at first second
          rcases first with before | ⟨rfl, tailFirst⟩
          · rcases second with later | ⟨same, _⟩
            · omega
            · subst same; omega
          · rcases second with later | ⟨_, tailSecond⟩
            · omega
            · rw [ih tailFirst tailSecond]

end Text

end Cascades
