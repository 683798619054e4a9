import Diagram.Expr.Parser
import Diagram.Proofs.Parser.Run

/-!
# Readings of expressions

What the parser of expressions does with the tokens that it takes, as relations between
tokens and expressions.  There is one relation for each form, with a rule for each way
through the form, and one for the turns of the loop over operands and operators.  Nested
expressions are left to a relation that is passed in, as the parser leaves them to a
parser.

Main statements: `exprWith_follows`, `expr_follows`.
-/

namespace Diagram.Parser

open Operation Expr

/-- The arguments of a call, up to the closing parenthesis. -/
inductive ArgsReading (N : List Token → Expr → Prop) : List Token → List Expr → Prop
  | nil : ArgsReading N [] []
  | last {ts e} (harg : N ts e) : ArgsReading N ts [e]
  | cons {ts us comma e es} (harg : N ts e) (hcomma : comma.lexeme = .symbol .comma)
      (hrest : ArgsReading N us es) : ArgsReading N (ts ++ comma :: us) (e :: es)

/-- The `for` clauses of a comprehension, around what was read before them. -/
inductive ClausesReading (N : List Token → Expr → Prop) : Expr → List Token → Expr → Prop
  | done {e} : ClausesReading N e [] e
  | next {ts us vs forEach inList e bound source e'} (hfor : forEach.lexeme = .keyword .forEach)
      (hbound : N ts bound) (hin : inList.lexeme = .keyword .inList) (hsource : N us source)
      (hrest : ClausesReading N (apply .listMap [e, bound, source]) vs e') :
      ClausesReading N e (forEach :: ts ++ inList :: us ++ vs) e'

/-- A form in brackets covers both of them. -/
def enclosed (opener closer : Token) (e : Expr) : Expr :=
  e.withArea (Area.between opener.start closer.stop)

/-- The rest of a list behind some items, with its closing bracket. -/
inductive ListReading (N : List Token → Expr → Prop) (opener : Token) :
    List Expr → List Token → Expr → Prop
  | close {items closer} (hclose : closer.lexeme = .symbol .squareRight) :
      ListReading N opener items [closer] (enclosed opener closer (apply .listLiteral items))
  | last {items ts closer item} (hitem : N ts item)
      (hclose : closer.lexeme = .symbol .squareRight) :
      ListReading N opener items (ts ++ [closer])
        (enclosed opener closer (apply .listLiteral (items ++ [item])))
  | next {items ts us comma item e} (hitem : N ts item) (hcomma : comma.lexeme = .symbol .comma)
      (hrest : ListReading N opener (items ++ [item]) us e) :
      ListReading N opener items (ts ++ comma :: us) e
  | fill {ts us semicolon closer item count} (hitem : N ts item)
      (hsemicolon : semicolon.lexeme = .symbol .semicolon) (hcount : N us count)
      (hclose : closer.lexeme = .symbol .squareRight) :
      ListReading N opener [] (ts ++ semicolon :: us ++ [closer])
        (enclosed opener closer (apply .listFill [item, count]))
  | filter {ts us whereCond closer item cond} (hitem : N ts item)
      (hwhere : whereCond.lexeme = .keyword .whereCond) (hcond : N us cond)
      (hclose : closer.lexeme = .symbol .squareRight) :
      ListReading N opener [] (ts ++ whereCond :: us ++ [closer])
        (enclosed opener closer (apply .listFilter [item, cond]))
  | map {ts us forEach closer item mapped} (hitem : N ts item)
      (hfor : forEach.lexeme = .keyword .forEach)
      (hclauses : ClausesReading N item (forEach :: us) mapped)
      (hclose : closer.lexeme = .symbol .squareRight) :
      ListReading N opener [] (ts ++ forEach :: us ++ [closer]) (enclosed opener closer mapped)
  | mapFilter {ts us vs forEach whereCond closer item mapped cond} (hitem : N ts item)
      (hfor : forEach.lexeme = .keyword .forEach)
      (hclauses : ClausesReading N item (forEach :: us) mapped)
      (hwhere : whereCond.lexeme = .keyword .whereCond) (hcond : N vs cond)
      (hclose : closer.lexeme = .symbol .squareRight) :
      ListReading N opener [] (ts ++ forEach :: us ++ whereCond :: vs ++ [closer])
        (enclosed opener closer (apply .listFilter [mapped, cond]))
  | range {items ts us dots closer item last s op}
      (hop : (s = .exclusiveRange ∧ op = .exclusiveRange) ∨ (s = .inclusiveRange ∧ op = .inclusiveRange))
      (hitem : N ts item) (hdots : dots.lexeme = .symbol s) (hlast : N us last)
      (hclose : closer.lexeme = .symbol .squareRight) :
      ListReading N opener items (ts ++ dots :: us ++ [closer])
        (enclosed opener closer (apply op (items ++ [item, last])))

/-- The arms of a conditional behind its first condition and what was read before it, up to the
closing brace.  A comma may stand behind the last value and behind the default. -/
inductive ArmsReading (N : List Token → Expr → Prop) :
    List Expr → List Token → List Expr → Prop
  | value {operands ts colon value} (hcolon : colon.lexeme = .symbol .colon) (hvalue : N ts value) :
      ArmsReading N operands (colon :: ts) (operands ++ [value])
  | valueComma {operands ts colon comma value} (hcolon : colon.lexeme = .symbol .colon)
      (hvalue : N ts value) (hcomma : comma.lexeme = .symbol .comma) :
      ArmsReading N operands (colon :: ts ++ [comma]) (operands ++ [value])
  | default {operands ts us colon comma value other} (hcolon : colon.lexeme = .symbol .colon)
      (hvalue : N ts value) (hcomma : comma.lexeme = .symbol .comma) (hother : N us other) :
      ArmsReading N operands (colon :: ts ++ comma :: us) (operands ++ [value, other])
  | defaultComma {operands ts us colon comma comma' value other}
      (hcolon : colon.lexeme = .symbol .colon) (hvalue : N ts value)
      (hcomma : comma.lexeme = .symbol .comma) (hother : N us other)
      (hcomma' : comma'.lexeme = .symbol .comma) :
      ArmsReading N operands (colon :: ts ++ comma :: us ++ [comma']) (operands ++ [value, other])
  | next {operands result ts us vs colon comma value cond}
      (hcolon : colon.lexeme = .symbol .colon) (hvalue : N ts value)
      (hcomma : comma.lexeme = .symbol .comma) (hcond : N us cond)
      (hrest : ArmsReading N (operands ++ [value, cond]) vs result) :
      ArmsReading N operands (colon :: ts ++ comma :: us ++ vs) result

/-- A form with brackets of its own. -/
inductive FormReading (N : List Token → Expr → Prop) : List Token → Expr → Prop
  | group {ts opener closer e} (hopen : opener.lexeme = .symbol .parenLeft) (hcontent : N ts e)
      (hclose : closer.lexeme = .symbol .parenRight) : FormReading N (opener :: ts ++ [closer]) e
  | point {ts us opener comma closer x y} (hopen : opener.lexeme = .symbol .parenLeft)
      (hx : N ts x) (hcomma : comma.lexeme = .symbol .comma) (hy : N us y)
      (hclose : closer.lexeme = .symbol .parenRight) :
      FormReading N (opener :: ts ++ comma :: us ++ [closer])
        (enclosed opener closer (apply .pointLiteral [x, y]))
  | list {ts opener e} (hopen : opener.lexeme = .symbol .squareLeft)
      (hrest : ListReading N opener [] ts e) : FormReading N (opener :: ts) e
  | conditional {ts us opener closer cond operands} (hopen : opener.lexeme = .symbol .curlyLeft)
      (hcond : N ts cond) (harms : ArmsReading N [cond] us operands)
      (hclose : closer.lexeme = .symbol .curlyRight) :
      FormReading N (opener :: ts ++ us ++ [closer])
        (enclosed opener closer (apply .conditional operands))

/-- The operators that precede an operation take their operands. -/
inductive Settles (op : Operation) : List Pending → List Expr → Stacks → Prop
  | empty {operands} : Settles op [] operands ⟨[], operands⟩
  | stop {p ps operands} (hop : p.op.precedes op = false) :
      Settles op (p :: ps) operands ⟨p :: ps, operands⟩
  | take {p ps operands s} (hop : p.op.precedes op = true) (hcount : p.count ≤ operands.length)
      (hrest : Settles op ps (apply p.op (operands.take p.count).reverse :: operands.drop p.count) s) :
      Settles op (p :: ps) operands s

/-- All operators take their operands. -/
inductive Collapses : List Pending → List Expr → List Expr → Prop
  | done {operands} : Collapses [] operands operands
  | take {p ps operands result} (hcount : p.count ≤ operands.length)
      (hrest : Collapses ps (apply p.op (operands.take p.count).reverse :: operands.drop p.count) result) :
      Collapses (p :: ps) operands result

def waits : Operation → Bool
  | .call | .actionCall | .index => false
  | _ => true

/-- One turn of the loop over operands and operators. -/
inductive Turn (N : List Token → Expr → Prop) :
    Stacks → Bool → List Token → Stacks → Bool → Prop
  | operand {s t e} (hoperand : operand? t = some e) : Turn N s true [t] (s.push e) false
  | form {s ts e} (hform : FormReading N ts e) : Turn N s true ts (s.push e) false
  | operator {s s' expectOperand t op}
      (hop : ofLexeme? t.lexeme expectOperand = some op) (hwaits : waits op = true)
      (hsettles : Settles op s.operators s.operands s') :
      Turn N s expectOperand [t] ⟨⟨op, operandCount op⟩ :: s'.operators, s'.operands⟩ true
  | call {s ps f operands args ts opener closer} (hopen : opener.lexeme = .symbol .parenLeft)
      (hsettles : Settles .call s.operators s.operands ⟨ps, f :: operands⟩)
      (hargs : ArgsReading N ts args) (hclose : closer.lexeme = .symbol .parenRight) :
      Turn N s false (opener :: ts ++ [closer]) ⟨ps, apply .call (f :: args) :: operands⟩ false
  | actionCall {s s' n args ts action name opener closer}
      (haction : action.lexeme = .keyword .actionDecl) (hname : name.lexeme = .name n)
      (hopen : opener.lexeme = .symbol .parenLeft)
      (hsettles : Settles .actionCall s.operators s.operands s') (hargs : ArgsReading N ts args)
      (hclose : closer.lexeme = .symbol .parenRight) :
      Turn N s true (action :: name :: opener :: ts ++ [closer])
        (s'.push (apply .actionCall (reference n name.area :: args))) false
  | index {s ps list i operands ts opener closer} (hopen : opener.lexeme = .symbol .squareLeft)
      (hsettles : Settles .index s.operators s.operands ⟨ps, list :: operands⟩) (hnumber : N ts i)
      (hclose : closer.lexeme = .symbol .squareRight) :
      Turn N s false (opener :: ts ++ [closer]) ⟨ps, apply .index [list, i] :: operands⟩ false

/-- The turns from a state of the stacks up to the end of an expression. -/
inductive Reading (N : List Token → Expr → Prop) : Stacks → Bool → List Token → Expr → Prop
  | finish {s e} (hrest : Collapses s.operators s.operands [e]) : Reading N s false [] e
  | turn {s s' b b' ts us e} (hturn : Turn N s b ts s' b') (hrest : Reading N s' b' us e) :
      Reading N s b (ts ++ us) e

/-- A parser of expressions takes only tokens that a relation allows, and stops on an end. -/
def Follows (nested : Ends → Parser Expr) (N : List Token → Expr → Prop) : Prop :=
  ∀ {ends : Ends} {ts : List Token} {last : Option Location} {d : Cursor} {e : Expr},
    (nested ends).run ⟨ts, last⟩ = .ok e d →
      ∃ us t rest, ts = us ++ t :: rest ∧ d = ⟨t :: rest, last⟩ ∧
        ends.contains t.lexeme = true ∧ N us e

attribute [local simp] Ends.ofSymbols Ends.contains_eq_true_iff

section Forms

variable {nested : Ends → Parser Expr} {N : List Token → Expr → Prop}
  {ts : List Token} {last : Option Location} {d : Cursor} {e : Expr} {opener : Token} {fuel : Nat}
  {args : List Expr}

@[simp] theorem run_close_cons (opener closer : Token) (e : Expr) (ts : List Token)
    (last : Option Location) :
    (close opener e).run ⟨closer :: ts, last⟩ = .ok (enclosed opener closer e) ⟨ts, last⟩ := rfl

variable (hN : Follows nested N)

include hN

/-- What follows a nested expression starts on the token that ends it. -/
theorem Follows.of_bind {α : Type} {f : Expr → Parser α} {a : α} {ends : Ends}
    (h : (nested ends >>= f).run ⟨ts, last⟩ = .ok a d) :
    ∃ x us t rest, ts = us ++ t :: rest ∧ ends.contains t.lexeme ∧ N us x ∧
      (f x).run ⟨t :: rest, last⟩ = .ok a d := by
  obtain ⟨x, c₁, hx, h⟩ := run_bind_eq_ok.1 h
  obtain ⟨us, t, rest, rfl, rfl, ht, hus⟩ := hN hx
  exact ⟨x, us, t, rest, rfl, ht, hus, h⟩

theorem paren_reads (hopen : opener.lexeme = .symbol .parenLeft)
    (h : (paren nested).run ⟨opener :: ts, last⟩ = .ok e d) :
    ∃ us, opener :: ts = us ++ d.rest ∧ d.last = last ∧ FormReading N us e := by
  obtain ⟨x, us, t, rest, rfl, ht, hux, h⟩ := hN.of_bind h
  by_cases hcomma : t.lexeme = .symbol .comma
  · simp only [run_seesSymbol_bind, hcomma, decide_true, if_true, run_advance_bind] at h
    obtain ⟨y, vs, t', rest', rfl, ht', hvy, h⟩ := hN.of_bind h
    cases h
    exact ⟨opener :: us ++ t :: vs ++ [t'], by simp, rfl,
      .point hopen hux hcomma hvy (by simpa using ht')⟩
  · simp only [run_seesSymbol_bind, hcomma, decide_false, Bool.false_eq_true, if_false] at h
    cases h
    exact ⟨opener :: us ++ [t], by simp, rfl, .group hopen hux (by simpa [hcomma] using ht)⟩

theorem forClauses_reads {first e' : Expr}
    (h : (forClauses nested fuel first).run ⟨ts, last⟩ = .ok e' d) :
    ∃ us t rest, ts = us ++ t :: rest ∧ d = ⟨t :: rest, last⟩ ∧
      t.lexeme ≠ .keyword .forEach ∧ ClausesReading N first us e' ∧
      (us ≠ [] → t.lexeme = .symbol .squareRight ∨ t.lexeme = .keyword .whereCond) := by
  induction fuel generalizing first ts with
  | zero => exact absurd h run_failAt_ne_ok
  | succ fuel ih =>
    obtain ⟨b, c₁, hat, h⟩ := run_bind_eq_ok.1 h
    obtain ⟨rfl, f, fs, rfl, rfl⟩ := run_atKeyword_eq_ok.1 hat
    by_cases hfor : f.lexeme = .keyword .forEach
    · simp only [hfor, decide_true, if_true, run_advance_bind] at h
      obtain ⟨bound, us, t, rest, rfl, ht, hub, h⟩ := hN.of_bind h
      obtain ⟨source, vs, t', rest', rfl, ht', hvs, h⟩ := hN.of_bind h
      obtain ⟨ws, t'', rest'', heq, rfl, hnot, hclauses, hend⟩ := ih h
      refine ⟨f :: us ++ t :: vs ++ ws, t'', rest'', by simp [heq], rfl, hnot,
        .next hfor hub (by simpa using ht) hvs hclauses, fun _ => ?_⟩
      cases ws with
      | nil =>
        obtain ⟨rfl, -⟩ : t' = t'' ∧ rest' = rest'' := by simpa using heq
        simpa [hnot] using ht'
      | cons w ws => exact hend (by simp)
    · simp only [hfor, decide_false, Bool.false_eq_true, if_false] at h
      cases h
      exact ⟨[], f, fs, rfl, rfl, hfor, .done, fun h => absurd rfl h⟩

/-- The last part of a list and its closing bracket. -/
theorem listTail_reads {t : Token} {f : Expr → Expr}
    (h : (listTail nested >>= fun x => close opener (f x)).run ⟨t :: ts, last⟩ = .ok e d) :
    ∃ us closer x, ts = us ++ closer :: d.rest ∧ d.last = last ∧
      closer.lexeme = .symbol .squareRight ∧ N us x ∧ e = enclosed opener closer (f x) := by
  obtain ⟨x, us, closer, rest, rfl, hcloser, hus, h⟩ := hN.of_bind h
  cases h
  exact ⟨us, closer, x, rfl, rfl, by simpa [listEnd] using hcloser, hus, rfl⟩

theorem listItems_reads {items : List Expr}
    (h : (listItems nested opener fuel items).run ⟨ts, last⟩ = .ok e d) :
    ∃ us, ts = us ++ d.rest ∧ d.last = last ∧ ListReading N opener items us e := by
  induction fuel generalizing items ts with
  | zero => exact absurd h run_failAt_ne_ok
  | succ fuel ih =>
    obtain ⟨b, c₁, hat, h⟩ := run_bind_eq_ok.1 h
    obtain ⟨rfl, t, ts, rfl, rfl⟩ := run_atSymbol_eq_ok.1 hat
    by_cases hclose : t.lexeme = .symbol .squareRight
    · simp only [hclose, decide_true, if_true] at h
      cases h
      exact ⟨[t], rfl, rfl, .close hclose⟩
    simp only [hclose, decide_false, Bool.false_eq_true, if_false] at h
    obtain ⟨item, us, u, rest, heq, hu, hus, h⟩ := hN.of_bind h
    rw [heq]
    unfold afterItem at h
    rw [run_token_bind] at h
    have hends : u.lexeme = .symbol .comma ∨ u.lexeme = .symbol .squareRight ∨
        u.lexeme = .symbol .semicolon ∨ u.lexeme = .symbol .exclusiveRange ∨
        u.lexeme = .symbol .inclusiveRange ∨ u.lexeme = .keyword .forEach ∨
        u.lexeme = .keyword .whereCond := by
      simpa [itemEnds, or_assoc] using hu
    rcases hends with hu | hu | hu | hu | hu | hu | hu <;> simp only [hu] at h
    · obtain ⟨vs, rfl, hlast, hvs⟩ := ih h
      exact ⟨us ++ u :: vs, by simp, hlast, .next hus hu hvs⟩
    · -- The next turn finds the closing bracket.
      cases fuel with
      | zero => exact absurd h run_failAt_ne_ok
      | succ fuel =>
        simp only [listItems, run_atSymbol_bind, hu, decide_true, if_true] at h
        cases h
        exact ⟨us ++ [u], by simp, rfl, .last hus hu⟩
    · cases items with
      | cons x xs => exact absurd h (by simpa using run_failAt_ne_ok)
      | nil =>
        obtain ⟨vs, closer, x, rfl, hlast, hcloser, hvs, rfl⟩ := listTail_reads hN h
        exact ⟨us ++ u :: vs ++ [closer], by simp, hlast, .fill hus hu hvs hcloser⟩
    · obtain ⟨vs, closer, x, rfl, hlast, hcloser, hvs, rfl⟩ := listTail_reads hN h
      exact ⟨us ++ u :: vs ++ [closer], by simp, hlast, .range (.inl ⟨rfl, rfl⟩) hus hu hvs hcloser⟩
    · obtain ⟨vs, closer, x, rfl, hlast, hcloser, hvs, rfl⟩ := listTail_reads hN h
      exact ⟨us ++ u :: vs ++ [closer], by simp, hlast, .range (.inr ⟨rfl, rfl⟩) hus hu hvs hcloser⟩
    · cases items with
      | cons x xs => exact absurd h (by simpa using run_failAt_ne_ok)
      | nil =>
        simp only [List.isEmpty_nil, if_true, run_get_bind] at h
        obtain ⟨mapped, c₁, hmapped, hend⟩ := run_bind_eq_ok.1 h
        obtain ⟨vs, v, rest', hrest, rfl, hnot, hclauses, hv⟩ := forClauses_reads hN hmapped
        rw [hrest]
        -- The first of the tokens is the `for` that ended the item.
        cases vs with
        | nil => exact absurd hu ((List.cons.inj hrest).1 ▸ hnot)
        | cons w ws =>
          have hfor : w.lexeme = .keyword .forEach := (List.cons.inj hrest).1 ▸ hu
          by_cases hwhere : v.lexeme = .keyword .whereCond
          · simp only [run_seesKeyword_bind, hwhere, decide_true, if_true] at hend
            obtain ⟨xs, closer, x, rfl, hlast, hcloser, hxs, rfl⟩ := listTail_reads hN hend
            exact ⟨us ++ w :: ws ++ v :: xs ++ [closer], by simp, hlast,
              .mapFilter hus hfor hclauses hwhere hxs hcloser⟩
          · simp only [run_seesKeyword_bind, hwhere, decide_false, Bool.false_eq_true, if_false] at hend
            cases hend
            exact ⟨us ++ w :: ws ++ [v], by simp, rfl,
              .map hus hfor hclauses ((hv (by simp)).resolve_right hwhere)⟩
    · cases items with
      | cons x xs => exact absurd h (by simpa using run_failAt_ne_ok)
      | nil =>
        obtain ⟨vs, closer, x, rfl, hlast, hcloser, hvs, rfl⟩ := listTail_reads hN h
        exact ⟨us ++ u :: vs ++ [closer], by simp, hlast, .filter hus hu hvs hcloser⟩

theorem list_reads (hopen : opener.lexeme = .symbol .squareLeft)
    (h : (list nested).run ⟨opener :: ts, last⟩ = .ok e d) :
    ∃ us, opener :: ts = us ++ d.rest ∧ d.last = last ∧ FormReading N us e := by
  unfold list at h
  obtain ⟨us, hus, hlast, hlist⟩ := listItems_reads hN h
  exact ⟨opener :: us, congrArg (opener :: ·) hus, hlast, .list hopen hlist⟩

/-- The arms leave the cursor on the closing brace or on the comma behind a default. -/
theorem arms_reads {operands result : List Expr} {colon : Token}
    (hcolon : colon.lexeme = .symbol .colon)
    (h : (arms nested fuel operands).run ⟨colon :: ts, last⟩ = .ok result d) :
    ∃ us t rest, colon :: ts = us ++ t :: rest ∧ d = ⟨t :: rest, last⟩ ∧
      ((t.lexeme = .symbol .curlyRight ∧ ArmsReading N operands us result) ∨
        (t.lexeme = .symbol .comma ∧ ArmsReading N operands (us ++ [t]) result)) := by
  induction fuel generalizing operands colon ts with
  | zero => exact absurd h run_failAt_ne_ok
  | succ fuel ih =>
    simp only [arms, run_atSymbol_bind, hcolon, decide_true, if_true, run_advance_bind] at h
    obtain ⟨value, us, u, rest, rfl, hu, hus, h⟩ := hN.of_bind h
    unfold afterValue at h
    by_cases hcomma : u.lexeme = .symbol .comma
    · rw [run_bind_of_ok (run_skipSymbol_of_eq hcomma)] at h
      obtain ⟨b, c₁, hat, h⟩ := run_bind_eq_ok.1 h
      obtain ⟨rfl, v, vs, hrest, rfl⟩ := run_atSymbol_eq_ok.1 hat
      obtain rfl : rest = v :: vs := hrest
      by_cases hclose : v.lexeme = .symbol .curlyRight
      · simp only [hclose, decide_true, if_true] at h
        cases h
        exact ⟨colon :: us ++ [u], v, vs, by simp, rfl,
          .inl ⟨hclose, .valueComma hcolon hus hcomma⟩⟩
      · simp only [hclose, decide_false, Bool.false_eq_true, if_false] at h
        obtain ⟨cond, ws, w, rest', heq, hw, hws, hrec⟩ := hN.of_bind h
        rw [heq]
        by_cases hw' : w.lexeme = .symbol .colon
        · obtain ⟨xs, x, rest'', heq', rfl, hend⟩ := ih hw' hrec
          rw [heq']
          refine ⟨colon :: us ++ u :: ws ++ xs, x, rest'', by simp, rfl, ?_⟩
          rcases hend with ⟨hx, hrest⟩ | ⟨hx, hrest⟩
          · exact .inl ⟨hx, .next hcolon hus hcomma hws hrest⟩
          · refine .inr ⟨hx, ?_⟩
            rw [List.append_assoc]
            exact .next hcolon hus hcomma hws hrest
        · -- What was read is the default.
          cases fuel with
          | zero => exact absurd hrec run_failAt_ne_ok
          | succ fuel =>
            simp only [arms, run_atSymbol_bind, hw', decide_false, Bool.false_eq_true, if_false] at hrec
            cases hrec
            have hends : w.lexeme = .symbol .comma ∨ w.lexeme = .symbol .curlyRight := by
              simpa [hw'] using hw
            refine ⟨colon :: us ++ u :: ws, w, rest', by simp, rfl, ?_⟩
            rcases hends with hw | hw
            · exact .inr ⟨hw, .defaultComma hcolon hus hcomma hws hw⟩
            · exact .inl ⟨hw, .default hcolon hus hcomma hws⟩
    · have hclose : u.lexeme = .symbol .curlyRight := by simpa [hcomma] using hu
      rw [run_bind_of_ok (run_skipSymbol_of_ne hcomma)] at h
      simp only [run_atSymbol_bind, hclose, decide_true, if_true] at h
      cases h
      exact ⟨colon :: us, u, rest, by simp, rfl, .inl ⟨hclose, .value hcolon hus⟩⟩

theorem conditional_reads (hopen : opener.lexeme = .symbol .curlyLeft)
    (h : (conditional nested).run ⟨opener :: ts, last⟩ = .ok e d) :
    ∃ us, opener :: ts = us ++ d.rest ∧ d.last = last ∧ FormReading N us e := by
  unfold conditional at h
  obtain ⟨cond, us, u, rest, rfl, hu, hus, h⟩ := hN.of_bind h
  rw [run_get_bind] at h
  obtain ⟨operands, c₁, hrun, h⟩ := run_bind_eq_ok.1 h
  obtain ⟨vs, v, rest', heq, rfl, hend⟩ := arms_reads hN (by simpa using hu) hrun
  rcases hend with ⟨hclose, harms⟩ | ⟨hcomma, harms⟩
  · simp only [run_seesSymbol_bind, hclose, decide_true, if_true] at h
    cases h
    exact ⟨opener :: us ++ vs ++ [v], by simp [heq], rfl, .conditional hopen hus harms hclose⟩
  · simp only [run_seesSymbol_bind, hcomma] at h
    obtain ⟨_, c₁, hadvance, h⟩ := run_bind_eq_ok.1 h
    obtain rfl := run_advance_eq_ok.1 hadvance
    obtain ⟨_, c₁, hexpect, h⟩ := run_bind_eq_ok.1 h
    obtain ⟨rfl, closer, rest'', hrest, hcloser⟩ := run_expectSymbol_eq_ok.1 hexpect
    obtain rfl : rest' = closer :: rest'' := hrest
    cases h
    exact ⟨opener :: us ++ (vs ++ [v]) ++ [closer], by simp [heq], rfl,
      .conditional hopen hus harms hcloser⟩

theorem args_reads (h : (untilSymbolIn .parenRight (do
      let arg ← nested (.ofSymbols [.comma, .parenRight])
      skipSymbol .comma
      return arg) fuel).run ⟨ts, last⟩ = .ok args d) :
    ∃ us closer rest, ts = us ++ closer :: rest ∧ d = ⟨closer :: rest, last⟩ ∧
      closer.lexeme = .symbol .parenRight ∧ ArgsReading N us args := by
  induction fuel generalizing ts args with
  | zero => exact absurd h run_failAt_ne_ok
  | succ fuel ih =>
    obtain ⟨b, c₁, hat, h⟩ := run_bind_eq_ok.1 h
    obtain ⟨rfl, t, ts, rfl, rfl⟩ := run_atSymbol_eq_ok.1 hat
    by_cases hclose : t.lexeme = .symbol .parenRight
    · simp only [hclose, decide_true, if_true] at h
      cases h
      exact ⟨[], t, ts, rfl, rfl, hclose, .nil⟩
    simp only [hclose, decide_false, Bool.false_eq_true, if_false] at h
    obtain ⟨arg, c₁, hitem, h⟩ := run_bind_eq_ok.1 h
    obtain ⟨args', c₂, hrest, h⟩ := run_bind_eq_ok.1 h
    cases h
    obtain ⟨arg', us, u, rest, heq, hu, hus, hskip⟩ := hN.of_bind hitem
    rw [heq]
    by_cases hcomma : u.lexeme = .symbol .comma
    · rw [run_bind_of_ok (run_skipSymbol_of_eq hcomma)] at hskip
      cases hskip
      obtain ⟨vs, closer, rest', rfl, rfl, hcloser, hvs⟩ := ih hrest
      exact ⟨us ++ u :: vs, closer, rest', by simp, rfl, hcloser, .cons hus hcomma hvs⟩
    · rw [run_bind_of_ok (run_skipSymbol_of_ne hcomma)] at hskip
      cases hskip
      have hcloser : u.lexeme = .symbol .parenRight := by simpa [hcomma] using hu
      -- The next turn finds the closing parenthesis.
      cases fuel with
      | zero => exact absurd hrest run_failAt_ne_ok
      | succ fuel =>
        simp only [untilSymbolIn, run_atSymbol_bind, hcloser, decide_true, if_true] at hrest
        cases hrest
        exact ⟨us, u, rest, rfl, rfl, hcloser, .last hus⟩

theorem callWith_reads (h : (callWith nested).run ⟨ts, last⟩ = .ok args d) :
    ∃ opener us closer rest, ts = opener :: us ++ closer :: rest ∧ d = ⟨closer :: rest, last⟩ ∧
      opener.lexeme = .symbol .parenLeft ∧ closer.lexeme = .symbol .parenRight ∧
      ArgsReading N us args := by
  unfold callWith untilSymbol at h
  obtain ⟨_, c₁, hexpect, h⟩ := run_bind_eq_ok.1 h
  obtain ⟨rfl, opener, rest, hts, hopen⟩ := run_expectSymbol_eq_ok.1 hexpect
  obtain rfl : ts = opener :: rest := hts
  obtain ⟨us, closer, rest', rfl, hd, hclose, hargs⟩ := args_reads hN h
  exact ⟨opener, us, closer, rest', rfl, hd, hopen, hclose, hargs⟩

end Forms

section Stacks

variable {c d : Cursor} {operands result : List Expr} {ps : List Pending}

theorem run_reduce_eq_ok {p : Pending} :
    (reduce p operands).run c = .ok result d ↔ d = c ∧ p.count ≤ operands.length ∧
      result = apply p.op (operands.take p.count).reverse :: operands.drop p.count := by
  unfold reduce
  by_cases hcount : operands.length < p.count
  · rw [if_pos hcount]
    constructor
    · intro h
      exact absurd h run_failAt_ne_ok
    · omega
  · rw [if_neg hcount, run_pure_eq_ok]
    constructor
    · rintro ⟨rfl, rfl⟩
      exact ⟨rfl, Nat.le_of_not_lt hcount, rfl⟩
    · rintro ⟨rfl, -, rfl⟩
      exact ⟨rfl, rfl⟩

theorem run_reduceBefore_eq_ok {op : Operation} {s : Stacks} :
    (reduceBefore op ps operands).run c = .ok s d ↔ d = c ∧ Settles op ps operands s := by
  induction ps generalizing operands c with
  | nil =>
    unfold reduceBefore
    rw [run_pure_eq_ok]
    constructor
    · rintro ⟨rfl, rfl⟩
      exact ⟨rfl, .empty⟩
    · rintro ⟨rfl, h⟩
      cases h
      exact ⟨rfl, rfl⟩
  | cons p ps ih =>
    unfold reduceBefore
    by_cases hop : p.op.precedes op = true
    · rw [if_pos hop]
      simp only [run_bind_eq_ok, run_reduce_eq_ok, ih]
      constructor
      · rintro ⟨operands', c', ⟨rfl, hcount, rfl⟩, rfl, h⟩
        exact ⟨rfl, .take hop hcount h⟩
      · rintro ⟨rfl, h⟩
        cases h with
        | stop hnot => simp [hop] at hnot
        | take _ hcount hrest => exact ⟨_, d, ⟨rfl, hcount, rfl⟩, rfl, hrest⟩
    · rw [if_neg hop, run_pure_eq_ok]
      constructor
      · rintro ⟨rfl, rfl⟩
        exact ⟨rfl, .stop (by simpa using hop)⟩
      · rintro ⟨rfl, h⟩
        cases h with
        | stop => exact ⟨rfl, rfl⟩
        | take hyes => exact absurd hyes hop

theorem run_reduceAll_eq_ok :
    (reduceAll ps operands).run c = .ok result d ↔ d = c ∧ Collapses ps operands result := by
  induction ps generalizing operands c with
  | nil =>
    unfold reduceAll
    rw [run_pure_eq_ok]
    constructor
    · rintro ⟨rfl, rfl⟩
      exact ⟨rfl, .done⟩
    · rintro ⟨rfl, h⟩
      cases h
      exact ⟨rfl, rfl⟩
  | cons p ps ih =>
    unfold reduceAll
    simp only [run_bind_eq_ok, run_reduce_eq_ok, ih]
    constructor
    · rintro ⟨operands', c', ⟨rfl, hcount, rfl⟩, rfl, h⟩
      exact ⟨rfl, .take hcount h⟩
    · rintro ⟨rfl, h⟩
      cases h with
      | take hcount hrest => exact ⟨_, d, ⟨rfl, hcount, rfl⟩, rfl, hrest⟩

end Stacks

section Loop

variable {nested : Ends → Parser Expr} {N : List Token → Expr → Prop}
  {ts : List Token} {last : Option Location} {d : Cursor} {e : Expr} {b b' : Bool} {op : Operation}
  {c : Cursor} {s s' : Stacks} {t : Token} {ends : Ends} {P : List Token → Expr → Prop}

theorem ofLexeme?_of_not_waits {l : Lexeme} (h : ofLexeme? l b = some op)
    (hwaits : waits op = false) :
    (op = .call ∧ b = false ∧ l = .symbol .parenLeft) ∨
      (op = .index ∧ b = false ∧ l = .symbol .squareLeft) ∨
      (op = .actionCall ∧ b ∧ l = .keyword .actionDecl) := by
  cases l with
  | symbol s =>
    cases s <;> cases b <;> simp [ofLexeme?, ofSymbol] at h <;> subst h <;>
      simp [waits] at hwaits ⊢
  | keyword k =>
    cases k <;> cases b <;> simp [ofLexeme?, ofKeyword] at h <;> subst h <;>
      simp [waits] at hwaits ⊢
  | _ => simp [ofLexeme?] at h

theorem run_pushOperator_of_waits (hwaits : waits op) (s : Stacks) (c : Cursor) :
    (pushOperator nested op s).run c =
      .ok (⟨⟨op, operandCount op⟩ :: s.operators, s.operands⟩, true) c := by
  cases op <;> first | rfl | simp [waits] at hwaits

theorem run_reduce_call_eq_ok {args operands result : List Expr} :
    (reduce ⟨op, 1 + args.length⟩ (args.reverse ++ operands)).run c = .ok result d ↔
      d = c ∧ ∃ f os, operands = f :: os ∧ result = apply op (f :: args) :: os := by
  rw [run_reduce_eq_ok]
  cases operands with
  | nil =>
    constructor
    · rintro ⟨-, hcount, -⟩
      have hcount : 1 + args.length ≤ (args.reverse ++ []).length := hcount
      rw [List.append_nil, List.length_reverse] at hcount
      omega
    · rintro ⟨-, f, os, hos, -⟩
      cases hos
  | cons f os =>
    have htake : ((args.reverse ++ f :: os).take (1 + args.length)).reverse = f :: args := by
      have hall : args.reverse.take (1 + args.length) = args.reverse :=
        List.take_of_length_le (by simp)
      simp [List.take_append, hall]
    have hdrop : (args.reverse ++ f :: os).drop (1 + args.length) = os := by
      simp [List.drop_append, Nat.add_comm 1]
    simp only [htake, hdrop]
    constructor
    · rintro ⟨rfl, -, rfl⟩
      exact ⟨rfl, f, os, rfl, rfl⟩
    · rintro ⟨rfl, f', os', hos, rfl⟩
      cases hos
      exact ⟨rfl, by simp; omega, rfl⟩

theorem operator_reads (hN : Follows nested N) {s₁ : Stacks}
    (hop : ofLexeme? t.lexeme b = some op)
    (hsettles : Settles op s.operators s.operands s₁) (h : (do
      let result ← pushOperator nested op s₁
      advance
      return result : Parser (Stacks × Bool)).run ⟨t :: ts, last⟩ = .ok (s', b') d) :
    ∃ us, t :: ts = us ++ d.rest ∧ d.last = last ∧ us ≠ [] ∧ Turn N s b us s' b' := by
  cases hwaits : waits op with
  | true =>
    rw [run_bind_of_ok (run_pushOperator_of_waits hwaits s₁ _)] at h
    cases h
    exact ⟨[t], rfl, rfl, by simp, .operator hop hwaits hsettles⟩
  | false =>
    obtain ⟨result, c₁, hpush, h⟩ := run_bind_eq_ok.1 h
    obtain ⟨_, c₂, hadvance, h⟩ := run_bind_eq_ok.1 h
    obtain rfl := run_advance_eq_ok.1 hadvance
    cases h
    obtain ⟨rfl, rfl, ht⟩ | ⟨rfl, rfl, ht⟩ | ⟨rfl, rfl, ht⟩ := ofLexeme?_of_not_waits hop hwaits
    · obtain ⟨args, c₂, hcall, hrest⟩ := run_bind_eq_ok.1 hpush
      obtain ⟨opener, us, closer, rest, heq, rfl, -, hclose, hargs⟩ := callWith_reads hN hcall
      obtain ⟨operands, c₂, hreduce, hresult⟩ := run_bind_eq_ok.1 hrest
      obtain ⟨rfl, f, os, hos, rfl⟩ := run_reduce_call_eq_ok.1 hreduce
      cases hresult
      cases heq
      obtain ⟨ps, _⟩ := s₁
      subst hos
      exact ⟨t :: us ++ [closer], by simp, rfl, by simp, .call ht hsettles hargs hclose⟩
    · unfold pushOperator at hpush
      obtain ⟨i, us, closer, rest, rfl, hclose, hi, hpush⟩ := hN.of_bind hpush
      obtain ⟨operands, c₂, hreduce, hpush⟩ := run_bind_eq_ok.1 hpush
      obtain ⟨rfl, f, os, hos, rfl⟩ := (@run_reduce_call_eq_ok _ _ _ [i] _ _).1 hreduce
      cases hpush
      obtain ⟨ps, _⟩ := s₁
      subst hos
      exact ⟨t :: us ++ [closer], by simp, rfl, by simp,
        .index ht hsettles hi (by simpa using hclose)⟩
    · unfold pushOperator at hpush
      rw [run_advance_bind] at hpush
      obtain ⟨name, c₂, htoken, hpush⟩ := run_bind_eq_ok.1 hpush
      obtain ⟨rfl, rest, hts⟩ := run_token_eq_ok.1 htoken
      obtain rfl : ts = name :: rest := hts
      obtain ⟨n, c₂, hexpect, hpush⟩ := run_bind_eq_ok.1 hpush
      obtain ⟨rfl, name', rest', hrest, hname⟩ := run_expectName_eq_ok.1 hexpect
      obtain ⟨rfl, rfl⟩ := List.cons.inj hrest
      rw [run_advance_bind] at hpush
      obtain ⟨args, c₂, hcall, hpush⟩ := run_bind_eq_ok.1 hpush
      obtain ⟨opener, us, closer, rest', heq, rfl, hopen, hclose, hargs⟩ := callWith_reads hN hcall
      obtain ⟨operands, c₂, hreduce, hresult⟩ := run_bind_eq_ok.1 hpush
      obtain ⟨rfl, f, os, hos, rfl⟩ := run_reduce_call_eq_ok.1 hreduce
      cases hos
      cases hresult
      rw [heq]
      exact ⟨t :: name :: opener :: us ++ [closer], by simp, rfl, by simp,
        .actionCall ht hname hopen hsettles hargs hclose⟩

theorem step_reads (hN : Follows nested N)
    (h : (step nested ends s b t).run ⟨t :: ts, last⟩ = .ok (s', b') d) :
    ∃ us, t :: ts = us ++ d.rest ∧ d.last = last ∧ us ≠ [] ∧ Turn N s b us s' b' := by
  unfold step at h
  cases hoperand : operand? t with
  | some x =>
    simp only [hoperand] at h
    cases b with
    | false => exact absurd h (by simpa using run_failAt_ne_ok)
    | true =>
      cases h
      exact ⟨[t], rfl, rfl, by simp, .operand hoperand⟩
  | none =>
    simp only [hoperand] at h
    split at h
    · -- A form with brackets of its own.
      rename_i form hform
      cases b with
      | false => simp at hform
      | true =>
        obtain ⟨x, c₁, hx, h⟩ := run_bind_eq_ok.1 h
        cases h
        suffices hread : ∃ us, t :: ts = us ++ d.rest ∧ d.last = last ∧ FormReading N us x by
          obtain ⟨us, hus, hlast, hform⟩ := hread
          refine ⟨us, hus, hlast, ?_, .form hform⟩
          rintro rfl
          nomatch hform
        simp only [if_true] at hform
        unfold container? at hform
        split at hform <;> cases hform
        · exact paren_reads hN ‹_› hx
        · exact list_reads hN ‹_› hx
        · exact conditional_reads hN ‹_› hx
    · cases hop : ofLexeme? t.lexeme b with
      | none => exact absurd h (by simpa [hop] using run_failAt_ne_ok)
      | some op =>
        simp only [hop] at h
        obtain ⟨s₁, c₁, hreduce, h⟩ := run_bind_eq_ok.1 h
        obtain ⟨rfl, hsettles⟩ := run_reduceBefore_eq_ok.1 hreduce
        exact operator_reads hN hop hsettles h

theorem finish_reads (h : (finish s b t).run c = .ok e d) :
    d = c ∧ b = false ∧ Collapses s.operators s.operands [e] := by
  cases b with
  | true => exact absurd h run_failAt_ne_ok
  | false =>
    obtain ⟨operands, c₁, hreduce, hresult⟩ := run_bind_eq_ok.1 h
    obtain ⟨rfl, hcollapses⟩ := run_reduceAll_eq_ok.1 hreduce
    split at hresult
    · cases hresult
      exact ⟨rfl, rfl, hcollapses⟩
    · exact absurd hresult run_failAt_ne_ok

theorem loop_reads (hN : Follows nested N) {fuel : Nat}
    (h : (loop nested ends fuel s b).run ⟨ts, last⟩ = .ok e d) :
    ∃ us t rest, ts = us ++ t :: rest ∧ d = ⟨t :: rest, last⟩ ∧
      ends.contains t.lexeme ∧ Reading N s b us e := by
  induction fuel generalizing ts s b with
  | zero => exact absurd h run_failAt_ne_ok
  | succ fuel ih =>
    obtain ⟨t, c₁, htoken, h⟩ := run_bind_eq_ok.1 h
    obtain ⟨rfl, rest, hts⟩ := run_token_eq_ok.1 htoken
    obtain rfl : ts = t :: rest := hts
    split at h
    case isTrue hend =>
      obtain ⟨rfl, rfl, hcollapses⟩ := finish_reads h
      exact ⟨[], t, rest, rfl, rfl, (Bool.and_eq_true_iff.1 hend).2, .finish hcollapses⟩
    case isFalse =>
      obtain ⟨⟨s', b'⟩, ⟨rest', last'⟩, hstep, hloop⟩ := run_bind_eq_ok.1 h
      obtain ⟨us, hus, hlast, -, hturn⟩ := step_reads hN hstep
      obtain rfl : last' = last := hlast
      obtain ⟨vs, t', rest'', hrest', rfl, ht', hrest⟩ := ih hloop
      exact ⟨us ++ vs, t', rest'', by simp [hus, hrest'], rfl, ht', .turn hturn hrest⟩

theorem exprWith_follows (hN : Follows nested N) :
    Follows (exprWith nested) (Reading N .empty true) := by
  intro ends ts last d e h
  unfold exprWith at h
  exact loop_reads hN h

/-- What every reading keeps, of nested expressions and of those around them, holds of all
expressions that are read. -/
theorem exprWithin_follows (hP : ∀ ts e, Reading P .empty true ts e → P ts e) (depth : Nat) :
    Follows (exprWithin depth) P := by
  induction depth with
  | zero =>
    intro ends ts last d e h
    exact absurd h run_failAt_ne_ok
  | succ depth ih =>
    intro ends ts last d e h
    obtain ⟨us, t, rest, hts, hd, ht, hread⟩ := exprWith_follows ih h
    exact ⟨us, t, rest, hts, hd, ht, hP us e hread⟩

theorem expr_follows (hP : ∀ ts e, Reading P .empty true ts e → P ts e) : Follows expr P := by
  intro ends ts last d e h
  unfold expr at h
  rw [run_get_bind] at h
  exact exprWithin_follows hP _ h

end Loop

end Diagram.Parser
