import Diagram.Proofs.Program.Judged

/-!
# Progress of the parsers

From every place in some tokens the parsers come to an end: with a value, farther on, or where a
token is refused.  They never run out of turns, and never rely on a token that is not there.  The
loop of the expressions has balanced stacks at each of its turns, so that its operators never lack
an operand behind one, and one operand is left in the end.

Main statements: `parsers_progress`, `loop_balanced`.
-/

namespace Diagram

open List

/-- The cursor that has passed the first `i` of some tokens. -/
def Cursor.past (tokens : List Token) (i : Nat) : Cursor :=
  { Cursor.ofTokens tokens with rest := tokens.drop i }

namespace Parser

open Cursor

variable {α : Type} {tokens ts : List Token} {i : Nat} {p : Parser α}

/-- A parser gives a value or finds a fault in the tokens: it has turns enough, and each token that
it takes without a check is there. -/
def Completes (p : Parser α) (c : Cursor) : Prop :=
  ∀ e d, p.run c = .error e d → e.cause ≠ .exhausted ∧ e.cause ≠ .absent

theorem over_past (hne : tokens ≠ []) (i : Nat) : (past tokens i).Over tokens where
  rest := drop_subset i tokens
  last := ⟨_, getLast_mem hne, by simp [past, ofTokens, getLast?_eq_some_getLast hne]⟩

variable {Q : α → Cursor → Prop}

/-- What is judged on every cursor fails only with a cause that lies in the tokens; if there are
none, that has to be seen by itself. -/
theorem cause_of_judged (hp : Judged tokens (Left tokens.length) p Q)
    (hnil : ∀ last e d, p.run ⟨[], last⟩ = .error e d → e.cause.isInternal = false)
    {e : Located Cause} {d : Cursor} (h : p.run (past tokens i) = .error e d) :
    e.cause.isInternal = false := by
  cases tokens with
  | nil =>
    rw [past, drop_nil] at h
    exact hnil _ e d h
  | cons t ts =>
    have hleft : (past (t :: ts) i).Left (t :: ts).length := by
      rw [Left, past, length_drop]
      omega
    have hrun := hp _ (over_past (cons_ne_nil t ts) i) hleft
    rw [h] at hrun
    exact hrun.cause

/-- What the tokens cause is neither a lack of turns nor a token that is not there. -/
theorem ne_of_isInternal_eq_false {cause : Cause} (h : cause.isInternal = false) :
    cause ≠ .exhausted ∧ cause ≠ .absent := by
  constructor <;> rintro rfl <;> cases h

theorem completes_of_judged (hp : Judged tokens (Left tokens.length) p Q)
    (hnil : ∀ last e d, p.run ⟨[], last⟩ = .error e d → e.cause.isInternal = false) :
    Completes p (past tokens i) :=
  fun _ _ h => ne_of_isInternal_eq_false (cause_of_judged hp hnil h)

theorem isInternal_of_expr_nil {ends : Ends} (last : Option Location) (e : Located Cause)
    (d : Cursor) (h : (expr ends).run ⟨[], last⟩ = .error e d) : e.cause.isInternal = false := by
  cases h
  rfl

/-- Behind some of the tokens that are left, these have been passed, too. -/
theorem past_add {us rest : List Token} {t : Token} (h : tokens.drop i = us ++ t :: rest) :
    ⟨t :: rest, (past tokens i).last⟩ = past tokens (i + us.length) ∧
      tokens[i + us.length]? = some t := by
  have hdrop : tokens.drop (i + us.length) = t :: rest := by
    rw [← drop_drop, h, drop_left]
  constructor
  · rw [past, past, hdrop]
  · rw [← head?_drop, hdrop]
    rfl

/-- An expression takes a token at least. -/
theorem ne_nil_of_expr {ends : Ends} {us rest : List Token} {t : Token} {e : Expr} {d : Cursor}
    (hdrop : tokens.drop i = us ++ t :: rest) (hd : d.rest = t :: rest)
    (h : (expr ends).run (past tokens i) = .ok e d) : us ≠ [] := by
  have hne : tokens ≠ [] := by
    rintro rfl
    simp at hdrop
  have hrun := judged_expr ends _ (over_past hne i) (Nat.le_refl (tokens.drop i).length)
  rw [h] at hrun
  have hleft : d.rest.length ≤ (tokens.drop i).length - 1 := hrun.2.1.left
  rintro rfl
  rw [hd, hdrop] at hleft
  exact absurd hleft (by simp)

/-- From every place in some tokens, expressions, calls, actions and programs are read to the end.
An expression leaves the cursor farther on, on one of its ends, and a call on the parenthesis that
closes it. -/
theorem parsers_progress (tokens : List Token) (i : Nat) :
    (∀ ends, Completes (expr ends) (past tokens i) ∧
      ∀ e d, (expr ends).run (past tokens i) = .ok e d →
        ∃ j t, i < j ∧ d = past tokens j ∧ tokens[j]? = some t ∧ ends.contains t.lexeme = true) ∧
    (Completes call (past tokens i) ∧
      ∀ args d, call.run (past tokens i) = .ok args d →
        ∃ j t, i < j ∧ d = past tokens j ∧ tokens[j]? = some t ∧ t.lexeme = .symbol .parenRight) ∧
    (∀ allowInline, Completes (action allowInline) (past tokens i)) ∧
    ∀ e, Program.parse tokens = .error e → e.cause ≠ .exhausted ∧ e.cause ≠ .absent := by
  refine ⟨fun ends => ⟨?_, ?_⟩, ⟨?_, ?_⟩, fun allowInline => ?_, ?_⟩
  · exact completes_of_judged (judged_expr ends) isInternal_of_expr_nil
  · intro e d h
    obtain ⟨us, t, rest, hdrop, rfl, hend, -⟩ := expr_grown h
    obtain ⟨hpast, hget⟩ := past_add hdrop
    have hpos := length_pos_of_ne_nil (ne_nil_of_expr hdrop rfl h)
    exact ⟨i + us.length, t, by omega, hpast, hget, hend⟩
  · refine completes_of_judged (judged_call.pre fun c hc => hc.mono (Nat.le_succ _)) ?_
    intro last e d h
    cases h
    rfl
  · intro args d h
    obtain ⟨opener, us, t, rest, hdrop, rfl, -, hclose, -⟩ := callWith_reads expr_grown h
    obtain ⟨hpast, hget⟩ := past_add hdrop
    exact ⟨i + (opener :: us).length, t, by simp, hpast, hget, hclose⟩
  · refine completes_of_judged (judged_action allowInline) ?_
    intro last e d h
    cases h
    rfl
  · intro e h
    obtain ⟨p, hp, -⟩ | ⟨e', he', hrefuses⟩ := Program.parse_outcome tokens
    · cases h.symm.trans hp
    · cases h.symm.trans he'
      exact ne_of_isInternal_eq_false hrefuses.cause

section Loop

variable {nested : Ends → Parser Expr} {ends : Ends} {c d : Cursor} {fuel : Nat} {s : Stacks}
  {b : Bool}

/-- The loop of an expression that starts on a cursor comes to a turn: with some turns left, with
some stacks, with or without an operand expected, and on another cursor. -/
inductive Arrives (nested : Ends → Parser Expr) (ends : Ends) (c : Cursor) :
    Nat → Stacks → Bool → Cursor → Prop
  | start : Arrives nested ends c c.budget .empty true c
  | turn {fuel s s' b b' d d' t} (hbefore : Arrives nested ends c (fuel + 1) s b d)
      (ht : d.rest.head? = some t)
      (hgoes : ((!b || s.operands.isEmpty) && ends.contains t.lexeme) = false)
      (hstep : (step nested ends s b t).run d = .ok (s', b') d') :
      Arrives nested ends c fuel s' b' d'

/-- An expression is what the loop makes of it from any of its turns on. -/
theorem Arrives.run_eq (h : Arrives nested ends c fuel s b d) :
    (exprWith nested ends).run c = (loop nested ends fuel s b).run d := by
  induction h with
  | start => rfl
  | turn _ ht hgoes hstep ih =>
    obtain ⟨ts, hts⟩ := head?_eq_some_iff.1 ht
    rw [ih, loop, run_bind_of_ok (run_token_eq_ok.2 ⟨rfl, ts, hts⟩),
      if_neg (by simp [hgoes]), run_bind_of_ok hstep]

theorem Arrives.balanced (hfollows : Follows nested fun _ _ => True)
    (h : Arrives nested ends c fuel s b d) : s.Balanced b := by
  induction h with
  | start => exact .empty
  | turn _ ht _ hstep ih => exact balanced_of_step hfollows ih ht hstep

/-- At every turn of the loop, on each level of an expression, the operands balance the operators.
So behind an operand all operators find theirs, those that wait as well as a call or an index with
its arguments, and an end leaves one expression.  No run ever fails because more are left. -/
theorem loop_balanced (ends : Ends) :
    (∀ depth c fuel s b d, Arrives (exprWithin depth) ends c fuel s b d →
      (exprWithin (depth + 1) ends).run c = (loop (exprWithin depth) ends fuel s b).run d ∧
      s.Balanced b ∧
      (b = false →
        (∀ op, ∃ s', (reduceBefore op s.operators s.operands).run d = .ok s' d ∧
          ∀ args : List Expr, ∃ r, (reduce ⟨op, 1 + args.length⟩ (args.reverse ++ s'.operands)).run d = .ok r d) ∧
        ∀ t, ∃ e, (finish s b t).run d = .ok e d)) ∧
    ∀ tokens i e d n, (expr ends).run (past tokens i) = .error e d → e.cause ≠ .leftOperands n := by
  constructor
  · intro depth c fuel s b d h
    have hs := h.balanced (follows_exprWithin depth)
    refine ⟨h.run_eq, hs, ?_⟩
    rintro rfl
    constructor
    · intro op
      obtain ⟨s', hsettles⟩ := hs.settles op
      refine ⟨s', run_reduceBefore_eq_ok.2 ⟨rfl, hsettles⟩, fun args => ?_⟩
      obtain ⟨f, os, hos⟩ := exists_cons_of_ne_nil (hsettles.balanced hs).ne_nil
      exact ⟨_, run_reduce_call_eq_ok.2 ⟨rfl, f, os, hos, rfl⟩⟩
    · intro t
      obtain ⟨e, he⟩ := hs.collapses
      exact ⟨e, run_finish he⟩
  · intro tokens i e d n h heq
    have hcause := cause_of_judged (judged_expr ends) isInternal_of_expr_nil h
    rw [heq] at hcause
    cases hcause

end Loop

end Parser

end Diagram
