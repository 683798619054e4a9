import Diagram.Proofs.Parser.Reading
import Diagram.Proofs.Parser.Writing

/-!
# Which operators can stand beside which

Operators wait on their stack in an order in which none precedes the one above it.  The laws
here say that this order and the places where parentheses may be left out agree: an operand
that may stand on the right of a waiting operator may also start there, and one that may stand
on the left of an operation is complete when the operation comes.
-/

namespace Diagram

open Precedence

namespace Precedence

theorem precedes_iff {p q : Precedence} :
    p.precedes q ↔ q.level < p.level ∨ (p.level = q.level ∧ p.isLeftAssociative) := by
  cases p <;> cases q <;> simp [precedes, level, isLeftAssociative]

end Precedence

namespace Operation

/-- Whether an operation is written with a word before or between its operands, so that it waits
for what follows. -/
def isOpen (op : Operation) : Bool :=
  op.unaryWord?.isSome || !op.binaryWords.isEmpty

variable {op q p : Operation} {w : Lexeme} {o : Option Operation}

theorem isOpen_of_unaryWord? (h : op.unaryWord? = some w) : op.isOpen := by
  simp [isOpen, h]

theorem isOpen_of_mem_binaryWords (h : w ∈ op.binaryWords) : op.isOpen := by
  have hne : op.binaryWords ≠ [] := List.ne_nil_of_mem h
  simp [isOpen, hne]

theorem level_of_isOpen (h : op.isOpen) : op.precedence.level ≠ 9 ∧ op.precedence.level ≤ 10 := by
  cases op <;> simp [isOpen, unaryWord?, binaryWords, precedence, level] at h ⊢

theorem level_eq_nine_iff : op.precedence.level = 9 ↔ op.precedence = .suffix := by
  cases op.precedence <;> simp [level]

theorem isLeftAssociative_of_ten_le (h : 10 ≤ op.precedence.level) :
    op.precedence.isLeftAssociative := by
  cases hp : op.precedence <;> simp [hp, level] at h <;> rfl

/-- An operation between its operands, or behind the first of them: an operand may stand on the
left of it. -/
theorem level_le_ten_of_isOpen_or_suffix (h : op.isOpen ∨ op.precedence = .suffix) :
    op.precedence.level ≤ 10 := by
  rcases h with h | h
  · exact (level_of_isOpen h).2
  · simp [h, level]

/-- An access takes its operands before every other operator. -/
theorem precedes_of_access (hq : q.precedence = .access) (hop : op.precedence.level ≤ 10) :
    q.precedes op := by
  have hlevel : q.precedence.level = 10 := by
    rw [hq]
    rfl
  have hassoc := isLeftAssociative_of_ten_le (Nat.le_of_eq hlevel.symm)
  refine precedes_iff.2 ?_
  rcases Nat.lt_or_ge op.precedence.level 10 with hlt | hge
  · exact .inl (by omega)
  · exact .inr ⟨by omega, hassoc⟩

/-- Only an access goes before an operator that stands before its operand. -/
theorem access_of_precedes (hq : q.isOpen) (hop : 8 ≤ op.precedence.level)
    (hprecedes : q.precedes op) : q.precedence = .access := by
  obtain ⟨hnine, hten⟩ := level_of_isOpen hq
  have hlevel := precedes_iff.1 hprecedes
  generalize op.precedence.level = k at hop hlevel
  cases hp : q.precedence <;>
    simp [hp, level, isLeftAssociative] at hnine hten hlevel ⊢ <;> omega

theorem admits_left_iff :
    op.admits .left (some q) ↔ q.precedes op ∨ q.precedence.level = 9 := by
  rw [level_eq_nine_iff]
  simp [admits]

theorem admits_right_iff : op.admits .right (some q) ↔ op.precedes q = false := by
  simp [admits]

/-- The operator that a waiting operator holds on its right goes before whatever the waiting one
goes before. -/
theorem admits_left_of_admits_right {r : Operation} (hright : p.admits .right o)
    (hleft : p.precedes r) : r.admits .left o := by
  cases o with
  | none => rfl
  | some q =>
    rw [admits_right_iff, Bool.eq_false_iff] at hright
    rw [admits_left_iff]
    unfold precedes at *
    rw [Ne, precedes_iff] at hright
    rw [precedes_iff] at hleft ⊢
    rcases hleft with hlt | ⟨heq, hassoc⟩
    · omega
    · have hne : p.precedence.level ≠ q.precedence.level := fun h => hright (.inr ⟨h, hassoc⟩)
      omega

/-- What may stand on the left of an operation may start where the operation may. -/
theorem admits_right_of_admits_left (hp : p.isOpen)
    (hop : op.isOpen ∨ op.precedence = .suffix) (hright : p.admits .right (some op))
    (hleft : op.admits .left o) : p.admits .right o := by
  cases o with
  | none => rfl
  | some q =>
    rw [admits_right_iff, Bool.eq_false_iff] at hright ⊢
    rw [admits_left_iff] at hleft
    unfold precedes at *
    rw [Ne, precedes_iff] at hright ⊢
    rw [precedes_iff] at hleft
    obtain ⟨hnine, hten⟩ := level_of_isOpen hp
    have hop := level_le_ten_of_isOpen_or_suffix hop
    have hassoc := @isLeftAssociative_of_ten_le p
    rintro (hlt | ⟨heq, hleftAssoc⟩)
    · rcases hleft with (hlt' | ⟨heq', hassoc'⟩) | hq
      · omega
      · omega
      · exact hright (by
          rcases Nat.lt_or_ge op.precedence.level 10 with h | h
          · exact .inl (by omega)
          · exact .inr ⟨by omega, hassoc (by omega)⟩)
    · rcases hleft with (hlt' | ⟨heq', hassoc'⟩) | hq
      · omega
      · exact hright (.inr ⟨by omega, hleftAssoc⟩)
      · omega

end Operation

end Diagram
