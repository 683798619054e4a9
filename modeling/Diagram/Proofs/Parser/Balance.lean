import Diagram.Proofs.Parser.Reading
import Mathlib.Algebra.GroupWithZero.Nat

/-!
# The balance of operands and operators

Each operator that waits has one operand less on the stack than it takes, and one more operand is
there when an operator is expected.  No turn of the loop upsets this, so that where an operator is
expected every operator finds its operands, and all of them leave one expression.

Main statements: `Turn.balanced`, `Stacks.Balanced.settles`, `Stacks.Balanced.collapses`.
-/

namespace Diagram.Parser

open List

/-- As many operands are on the stack as the operators leave over while they wait, and one more if
no operand is expected. -/
structure Stacks.Balanced (s : Stacks) (expectOperand : Bool) : Prop where
  counts : ∀ p ∈ s.operators, 0 < p.count
  operands : s.operands.length =
    (s.operators.map (·.count - 1)).sum + (if expectOperand then 0 else 1)

variable {s s' : Stacks} {b b' : Bool} {p : Pending} {ps : List Pending} {operands : List Expr}
  {op : Operation}

namespace Stacks.Balanced

theorem empty : Stacks.empty.Balanced true :=
  ⟨by simp [Stacks.empty], rfl⟩

theorem push (h : s.Balanced true) (e : Expr) : (s.push e).Balanced false :=
  ⟨h.counts, by simp [Stacks.push, h.operands]⟩

theorem ne_nil (h : s.Balanced false) : s.operands ≠ [] :=
  ne_nil_of_length_eq_add_one h.operands

/-- An operator that takes its operands and leaves one in their place keeps the balance. -/
theorem reduce (h : Stacks.Balanced ⟨p :: ps, operands⟩ b) (hcount : p.count ≤ operands.length) :
    Stacks.Balanced ⟨ps, Expr.apply p.op (operands.take p.count).reverse :: operands.drop p.count⟩
      b := by
  obtain ⟨hpos, hps⟩ := forall_mem_cons.1 h.counts
  have hlength := h.operands
  refine ⟨hps, ?_⟩
  simp only [map_cons, sum_cons, length_cons, length_drop] at hlength ⊢
  omega

/-- The topmost operator finds its operands when an operator is expected. -/
theorem count_le (h : Stacks.Balanced ⟨p :: ps, operands⟩ false) : p.count ≤ operands.length := by
  have hlength := h.operands
  simp only [map_cons, sum_cons, Bool.false_eq_true, if_false] at hlength
  omega

theorem settles (h : Stacks.Balanced ⟨ps, operands⟩ false) (op : Operation) :
    ∃ s, Settles op ps operands s := by
  induction ps generalizing operands with
  | nil => exact ⟨_, .empty⟩
  | cons p ps ih =>
    cases hop : p.op.precedes op with
    | false => exact ⟨_, .stop hop⟩
    | true =>
      obtain ⟨s, hs⟩ := ih (h.reduce h.count_le)
      exact ⟨s, .take hop h.count_le hs⟩

theorem collapses (h : Stacks.Balanced ⟨ps, operands⟩ false) : ∃ e, Collapses ps operands [e] := by
  induction ps generalizing operands with
  | nil =>
    obtain ⟨e, rfl⟩ := length_eq_one_iff.1 h.operands
    exact ⟨e, .done⟩
  | cons p ps ih =>
    obtain ⟨e, he⟩ := ih (h.reduce h.count_le)
    exact ⟨e, .take h.count_le he⟩

end Stacks.Balanced

theorem Settles.balanced (h : Settles op ps operands s) (hs : Stacks.Balanced ⟨ps, operands⟩ b) :
    s.Balanced b := by
  induction h with
  | empty | stop _ => exact hs
  | take _ hcount _ ih => exact ih (hs.reduce hcount)

/-- Operators that wait take two operands where one is there already, and one otherwise. -/
theorem operandCount_of_ofLexeme? {l : Lexeme} (h : Operation.ofLexeme? l b = some op)
    (hwaits : waits op) : operandCount op = 1 + (if b then 0 else 1) := by
  cases l with
  | symbol s =>
    cases s <;> cases b <;> simp [Operation.ofLexeme?, Operation.ofSymbol] at h <;> subst h <;> rfl
  | keyword k =>
    cases k <;> cases b <;> simp [Operation.ofLexeme?, Operation.ofKeyword] at h <;> subst h <;>
      first | rfl | simp [waits] at hwaits
  | _ => simp [Operation.ofLexeme?] at h

theorem Turn.balanced {N : List Token → Expr → Prop} {ts : List Token} (h : Turn N s b ts s' b')
    (hs : s.Balanced b) : s'.Balanced b' := by
  cases h with
  | operand _ | form _ => exact hs.push _
  | operator hop hwaits hsettles =>
    have hcount := operandCount_of_ofLexeme? hop hwaits
    have hsettled := hsettles.balanced hs
    refine ⟨forall_mem_cons.2 ⟨?_, hsettled.counts⟩, ?_⟩
    · simp only [hcount]
      omega
    · have hlength := hsettled.operands
      simp only [map_cons, sum_cons, hcount, if_true]
      omega
  | call _ hsettles _ _ | index _ hsettles _ _ =>
    have hsettled := hsettles.balanced hs
    exact ⟨hsettled.counts, hsettled.operands⟩
  | actionCall _ _ _ hsettles _ _ => exact (hsettles.balanced hs).push _

end Diagram.Parser
