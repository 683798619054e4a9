import Diagram.Proofs.Parser.Reading
import Diagram.Proofs.Parser.Writing

/-!
# Readings are realized

The parser does what a reading says: from the tokens of a reading it gives the expression of
the reading and leaves what follows.  `Reads` says this of a parser of nested expressions; the
loops have turns enough because every turn takes a token.

Main statement: `reads_exprWith`.
-/

namespace Diagram.Parser

open List

attribute [local simp] Ends.ofSymbols Ends.contains_eq_true_iff itemEnds

/-- A parser reads some tokens as an expression, wherever it may stop behind them. -/
structure Reads (nested : Ends → Parser Expr) (ts : List Token) (e : Expr) : Prop where
  starts : ∃ t us, ts = t :: us ∧ t.lexeme.starts = true
  run : ∀ {ends : Ends}, ends.areOutside = true → ∀ {t : Token}, ends.contains t.lexeme = true →
    ∀ (rest : List Token) (last : Option Location),
      (nested ends).run ⟨ts ++ t :: rest, last⟩ = .ok e ⟨t :: rest, last⟩

section Forms

variable {nested : Ends → Parser Expr} {ts us rest : List Token} {e e' : Expr} {t : Token}
  {last : Option Location}

/-- The word that a reading starts with is none of the words that close or separate. -/
theorem Reads.head_ne (h : Reads nested ts e) {l : Lexeme} (hl : l.starts = false) :
    ∃ t us, ts = t :: us ∧ t.lexeme ≠ l := by
  obtain ⟨t, us, hts, ht⟩ := h.starts
  refine ⟨t, us, hts, ?_⟩
  rintro rfl
  simp [ht] at hl

theorem run_atSymbol_of_reads (h : Reads nested ts e) {s : Symbol}
    (hs : (Lexeme.symbol s).starts = false) :
    (atSymbol s).run ⟨ts ++ rest, last⟩ = .ok false ⟨ts ++ rest, last⟩ := by
  obtain ⟨t, us, rfl, ht⟩ := h.head_ne hs
  exact run_atSymbol_eq_ok.2 ⟨rfl, t, us ++ rest, rfl, by simp [ht]⟩

variable {opener closer : Token} {N : List Token → Expr → Prop} {fuel : Nat}
  {operands result : List Expr}

theorem run_paren (hread : FormReading (Reads nested) ts e) (hts : ts = opener :: us)
    (hopen : opener.lexeme = .symbol .parenLeft) :
    (paren nested).run ⟨ts ++ rest, last⟩ = .ok e ⟨rest, last⟩ := by
  unfold paren
  cases hread with
  | @group ts₁ opener₁ closer e _ hcontent hclose =>
    simp only [cons_append, append_assoc, nil_append]
    rw [run_token_bind, run_advance_bind, run_bind_of_ok (hcontent.run rfl (by simp [hclose]) _ _),
      run_seesSymbol_bind]
    simp only [hclose]
    rfl
  | @point ts₁ us₁ opener₁ comma closer x y _ hx hcomma hy hclose =>
    simp only [cons_append, append_assoc, nil_append]
    rw [run_token_bind, run_advance_bind, run_bind_of_ok (hx.run rfl (by simp [hcomma]) _ _),
      run_seesSymbol_bind]
    simp only [hcomma, decide_true, if_true]
    rw [run_advance_bind, run_bind_of_ok (hy.run rfl (by simp [hclose]) _ _), run_close_cons]
  | list hopen' | conditional hopen' => simp_all

/-- Behind the tokens before them, clauses start with a `for` if there are some. -/
theorem ClausesReading.head_or_end (hread : ClausesReading N e us e') (t : Token)
    (rest : List Token) :
    ∃ u vs, us ++ t :: rest = u :: vs ∧ (u = t ∨ u.lexeme = .keyword .forEach) := by
  cases hread with
  | done => exact ⟨t, rest, rfl, .inl rfl⟩
  | next hfor => exact ⟨_, _, rfl, .inr hfor⟩

theorem run_forClauses (hread : ClausesReading (Reads nested) e us e')
    (ht : t.lexeme = .symbol .squareRight ∨ t.lexeme = .keyword .whereCond)
    (hfuel : us.length < fuel) :
    (forClauses nested fuel e).run ⟨us ++ t :: rest, last⟩ = .ok e' ⟨t :: rest, last⟩ := by
  induction hread generalizing fuel with
  | done =>
    obtain ⟨fuel, rfl⟩ := Nat.exists_eq_add_of_lt hfuel
    unfold forClauses
    simp only [nil_append]
    rw [run_atKeyword_bind]
    have hnot : t.lexeme ≠ .keyword .forEach := by rcases ht with ht | ht <;> simp [ht]
    simp [hnot]
  | next hfor hbound hin hsource hrest ih =>
    obtain _ | fuel := fuel
    · omega
    unfold forClauses
    simp only [cons_append, append_assoc]
    rw [run_atKeyword_bind]
    simp only [hfor, decide_true, if_true]
    rw [run_advance_bind, run_bind_of_ok (hbound.run rfl (by simp [hin]) _ _), run_advance_bind]
    obtain ⟨u, ws, heq, hu⟩ := hrest.head_or_end t rest
    have hends : Ends.contains ⟨[.squareRight], [.forEach, .whereCond]⟩ u.lexeme = true := by
      rcases hu with rfl | hu
      · rcases ht with ht | ht <;> simp [ht]
      · simp [hu]
    rw [heq, run_bind_of_ok (hsource.run rfl hends _ _), ← heq]
    exact ih (by simp at hfuel; omega)

theorem run_listTail {us : List Token} (hread : Reads nested us e)
    (hclose : closer.lexeme = .symbol .squareRight) (t : Token) :
    (listTail nested).run ⟨t :: us ++ closer :: rest, last⟩ = .ok e ⟨closer :: rest, last⟩ := by
  unfold listTail
  exact hread.run rfl (by simp [listEnd, hclose]) _ _

theorem run_listItems_item (hread : Reads nested ts e) {t : Token}
    (ht : itemEnds.contains t.lexeme) (fuel : Nat) (items : List Expr) :
    (listItems nested opener (fuel + 1) items).run ⟨ts ++ t :: rest, last⟩ =
      (afterItem nested opener (listItems nested opener fuel) items e).run ⟨t :: rest, last⟩ := by
  rw [listItems, run_bind_of_ok (run_atSymbol_of_reads hread rfl)]
  simp only [Bool.false_eq_true, if_false]
  rw [run_bind_of_ok (hread.run rfl ht _ _)]

theorem run_listItems_close (hclose : closer.lexeme = .symbol .squareRight) (fuel : Nat)
    (items : List Expr) :
    (listItems nested opener (fuel + 1) items).run ⟨closer :: rest, last⟩ =
      .ok (enclosed opener closer (Expr.apply .listLiteral items)) ⟨rest, last⟩ := by
  rw [listItems, run_atSymbol_bind]
  simp [hclose]

theorem run_listItems {items : List Expr} (hread : ListReading (Reads nested) opener items us e)
    (hfuel : us.length < fuel) :
    (listItems nested opener fuel items).run ⟨us ++ rest, last⟩ = .ok e ⟨rest, last⟩ := by
  induction hread generalizing fuel with
  | close hclose =>
    obtain _ | fuel := fuel
    · omega
    exact run_listItems_close hclose fuel _
  | last hitem hclose =>
    obtain ⟨fuel, rfl⟩ : ∃ n, fuel = n + 2 := Nat.exists_eq_add_of_le' (by simp at hfuel; omega)
    rw [append_assoc, singleton_append, run_listItems_item hitem (by simp [hclose]), afterItem,
      run_token_bind]
    simp only [hclose]
    exact run_listItems_close hclose fuel _
  | next hitem hcomma hrest ih =>
    obtain _ | fuel := fuel
    · omega
    rw [append_assoc, cons_append, run_listItems_item hitem (by simp [hcomma]), afterItem,
      run_token_bind]
    simp only [hcomma]
    exact ih (by simp at hfuel; omega)
  | fill hitem hsemicolon hcount hclose | filter hitem hsemicolon hcount hclose =>
    obtain _ | fuel := fuel
    · omega
    simp only [append_assoc, cons_append, nil_append]
    rw [run_listItems_item hitem (by simp [hsemicolon]), afterItem, run_token_bind]
    simp only [hsemicolon, isEmpty_nil, if_true]
    rw [← cons_append, run_bind_of_ok (run_listTail hcount hclose _), run_close_cons]
  | map hitem hfor hclauses hclose =>
    obtain _ | fuel := fuel
    · omega
    simp only [append_assoc, cons_append, nil_append]
    rw [run_listItems_item hitem (by simp [hfor]), afterItem, run_token_bind]
    simp only [hfor, isEmpty_nil, if_true]
    rw [run_get_bind, ← cons_append,
      run_bind_of_ok (run_forClauses hclauses (.inl hclose) Cursor.length_lt_budget),
      run_seesKeyword_bind]
    simp [hclose]
  | mapFilter hitem hfor hclauses hwhere hcond hclose =>
    obtain _ | fuel := fuel
    · omega
    simp only [append_assoc, cons_append, nil_append]
    rw [run_listItems_item hitem (by simp [hfor]), afterItem, run_token_bind]
    simp only [hfor, isEmpty_nil, if_true]
    rw [run_get_bind, ← cons_append,
      run_bind_of_ok (run_forClauses hclauses (.inr hwhere) Cursor.length_lt_budget),
      run_seesKeyword_bind]
    simp only [hwhere, decide_true, if_true]
    rw [← cons_append, run_bind_of_ok (run_listTail hcond hclose _), run_close_cons]
  | range hop hitem hdots hlast hclose =>
    obtain _ | fuel := fuel
    · omega
    simp only [append_assoc, cons_append, nil_append]
    obtain ⟨rfl, rfl⟩ | ⟨rfl, rfl⟩ := hop
    all_goals
      rw [run_listItems_item hitem (by simp [hdots]), afterItem, run_token_bind]
      simp only [hdots]
      rw [← cons_append, run_bind_of_ok (run_listTail hlast hclose _), run_close_cons]

theorem run_list (hread : FormReading (Reads nested) ts e) (hts : ts = opener :: us)
    (hopen : opener.lexeme = .symbol .squareLeft) :
    (list nested).run ⟨ts ++ rest, last⟩ = .ok e ⟨rest, last⟩ := by
  unfold list
  cases hread with
  | list _ hlist =>
    exact run_listItems hlist Cursor.length_lt_budget
  | group hopen' | point hopen' | conditional hopen' => simp_all

theorem ArmsReading.head (hread : ArmsReading N operands us result) :
    ∃ colon vs, us = colon :: vs ∧ colon.lexeme = .symbol .colon := by
  cases hread with
  | value hcolon | valueComma hcolon | default hcolon | defaultComma hcolon | next hcolon =>
    exact ⟨_, _, rfl, hcolon⟩

theorem run_arms_value {colon : Token} (hcolon : colon.lexeme = .symbol .colon)
    (hread : Reads nested ts e) {t : Token}
    (ht : t.lexeme = .symbol .comma ∨ t.lexeme = .symbol .curlyRight) (fuel : Nat)
    (operands : List Expr) :
    (arms nested (fuel + 1) operands).run ⟨colon :: (ts ++ t :: rest), last⟩ =
      (afterValue nested (arms nested fuel) operands e).run ⟨t :: rest, last⟩ := by
  have hends : (Ends.ofSymbols [.comma, .curlyRight]).contains t.lexeme = true := by
    simpa using ht
  rw [arms, run_atSymbol_bind]
  simp only [hcolon, decide_true, if_true]
  rw [run_advance_bind, run_bind_of_ok (hread.run rfl hends _ _)]

/-- Behind a value and its comma the next expression is read up to the word behind it. -/
theorem run_afterValue {comma : Token} (hcomma : comma.lexeme = .symbol .comma)
    (hread : Reads nested ts e) {t : Token}
    (ht : (Ends.ofSymbols [.colon, .comma, .curlyRight]).contains t.lexeme)
    (more : List Expr → Parser (List Expr)) (operands : List Expr) (value : Expr)
    :
    (afterValue nested more operands value).run ⟨comma :: (ts ++ t :: rest), last⟩ =
      (more (operands ++ [value, e])).run ⟨t :: rest, last⟩ := by
  rw [afterValue, run_bind_of_ok (run_skipSymbol_of_eq hcomma),
    run_bind_of_ok (run_atSymbol_of_reads hread rfl)]
  simp only [Bool.false_eq_true, if_false]
  rw [run_bind_of_ok (hread.run rfl ht _ _)]

theorem run_arms_stop (ht : t.lexeme ≠ .symbol .colon) (fuel : Nat) (operands : List Expr)
    :
    (arms nested (fuel + 1) operands).run ⟨t :: rest, last⟩ = .ok operands ⟨t :: rest, last⟩ := by
  rw [arms, run_atSymbol_bind]
  simp [ht]

theorem run_arms (hread : ArmsReading (Reads nested) operands us result)
    (ht : t.lexeme = .symbol .curlyRight) (hfuel : us.length < fuel) (rest : List Token)
    (last : Option Location) :
    ∃ vs, (vs = [] ∨ ∃ comma : Token, vs = [comma] ∧ comma.lexeme = .symbol .comma) ∧
      (arms nested fuel operands).run ⟨us ++ t :: rest, last⟩ =
        .ok result ⟨vs ++ t :: rest, last⟩ := by
  induction hread generalizing fuel with
  | value hcolon hvalue =>
    obtain _ | fuel := fuel
    · omega
    rw [cons_append, run_arms_value hcolon hvalue (.inr ht), afterValue,
      run_bind_of_ok (run_skipSymbol_of_ne (by simp [ht])),
      run_atSymbol_bind]
    simp [ht]
  | valueComma hcolon hvalue hcomma =>
    obtain _ | fuel := fuel
    · omega
    simp only [append_assoc, cons_append, nil_append]
    rw [run_arms_value hcolon hvalue (.inl hcomma), afterValue,
      run_bind_of_ok (run_skipSymbol_of_eq hcomma),
      run_atSymbol_bind]
    simp [ht]
  | default hcolon hvalue hcomma hother =>
    obtain ⟨fuel, rfl⟩ : ∃ n, fuel = n + 2 := Nat.exists_eq_add_of_le' (by simp at hfuel; omega)
    refine ⟨[], .inl rfl, ?_⟩
    simp only [append_assoc, cons_append]
    rw [run_arms_value hcolon hvalue (.inl hcomma), run_afterValue hcomma hother (by simp [ht]),
      run_arms_stop (by simp [ht])]
    rfl
  | @defaultComma operands ts us colon comma comma' value other hcolon hvalue hcomma hother
      hcomma' =>
      obtain ⟨fuel, rfl⟩ : ∃ n, fuel = n + 2 := Nat.exists_eq_add_of_le' (by simp at hfuel; omega)
      refine ⟨[comma'], .inr ⟨comma', rfl, hcomma'⟩, ?_⟩
      simp only [append_assoc, cons_append, nil_append]
      rw [run_arms_value hcolon hvalue (.inl hcomma),
        run_afterValue hcomma hother (by simp [hcomma']),
        run_arms_stop (by simp [hcomma'])]
  | next hcolon hvalue hcomma hcond hrest ih =>
    obtain _ | fuel := fuel
    · omega
    obtain ⟨vs, hvs, hrun⟩ := @ih fuel (by simp at hfuel; omega)
    refine ⟨vs, hvs, ?_⟩
    obtain ⟨colon', ws, rfl, hcolon'⟩ := hrest.head
    simp only [append_assoc, cons_append] at hrun ⊢
    rw [run_arms_value hcolon hvalue (.inl hcomma), run_afterValue hcomma hcond (by simp [hcolon'])]
    exact hrun

theorem run_conditional (hread : FormReading (Reads nested) ts e) (hts : ts = opener :: us)
    (hopen : opener.lexeme = .symbol .curlyLeft) :
    (conditional nested).run ⟨ts ++ rest, last⟩ = .ok e ⟨rest, last⟩ := by
  cases hread with
  | @conditional ts us opener closer cond operands _ hcond harms hclose =>
    obtain ⟨colon, vs, rfl, hcolon⟩ := harms.head
    have hfuel : (colon :: vs).length <
        Cursor.budget ⟨colon :: vs ++ closer :: rest, last⟩ :=
      Cursor.length_lt_budget
    obtain ⟨ws, hws, hrun⟩ := run_arms harms hclose hfuel rest last
    unfold conditional
    simp only [append_assoc, cons_append, nil_append] at hrun ⊢
    rw [run_token_bind, run_advance_bind, run_bind_of_ok (hcond.run rfl (by simp [hcolon]) _ _),
      run_get_bind, run_bind_of_ok hrun]
    rcases hws with rfl | ⟨comma, rfl, hcomma⟩
    · rw [nil_append, run_seesSymbol_bind]
      simp [hclose]
    · rw [singleton_append, run_seesSymbol_bind]
      simp only [hcomma]
      change (do
        advance
        expectSymbol .curlyRight
        close opener (Expr.apply .conditional operands) : Parser Expr).run _ = _
      rw [run_advance_bind, run_bind_of_ok (run_expectSymbol_of_eq hclose), run_close_cons]
  | group hopen' | point hopen' | list hopen' => simp_all

theorem run_callWith {args : List Expr} (hopen : opener.lexeme = .symbol .parenLeft)
    (hread : ArgsReading (Reads nested) us args) (hclose : closer.lexeme = .symbol .parenRight)
    :
    (callWith nested).run ⟨opener :: (us ++ closer :: rest), last⟩ =
      .ok args ⟨closer :: rest, last⟩ := by
  unfold callWith untilSymbol
  rw [run_bind_of_ok (run_expectSymbol_of_eq hopen), run_advance_bind, run_get_bind]
  have hfuel : us.length < Cursor.budget ⟨us ++ closer :: rest, last⟩ := Cursor.length_lt_budget
  generalize Cursor.budget ⟨us ++ closer :: rest, last⟩ = fuel at hfuel
  induction hread generalizing fuel with
  | nil =>
    obtain _ | fuel := fuel
    · omega
    rw [untilSymbolIn, nil_append, run_atSymbol_bind]
    simp [hclose]
  | last harg =>
    obtain ⟨t, us, rfl, -⟩ := harg.starts
    obtain ⟨fuel, rfl⟩ : ∃ n, fuel = n + 2 := Nat.exists_eq_add_of_le' (by simp at hfuel; omega)
    rw [untilSymbolIn, run_bind_of_ok (run_atSymbol_of_reads harg rfl)]
    simp only [Bool.false_eq_true, if_false, bind_assoc]
    rw [run_bind_of_ok (harg.run rfl (by simp [hclose]) _ _),
      run_bind_of_ok (run_skipSymbol_of_ne (by simp [hclose])), pure_bind, untilSymbolIn]
    simp only [bind_assoc]
    rw [run_atSymbol_bind]
    simp [hclose]
  | cons harg hcomma hrest ih =>
    obtain _ | fuel := fuel
    · omega
    rw [untilSymbolIn, append_assoc, cons_append, run_bind_of_ok (run_atSymbol_of_reads harg rfl)]
    simp only [Bool.false_eq_true, if_false, bind_assoc]
    rw [run_bind_of_ok (harg.run rfl (by simp [hcomma]) _ _),
      run_bind_of_ok (run_skipSymbol_of_eq hcomma), pure_bind,
      run_bind_of_ok (ih fuel (by simp at hfuel; omega))]
    rfl

end Forms

section Loop

variable {nested : Ends → Parser Expr} {us vs rest : List Token} {s s' : Stacks} {b b' : Bool}
  {t : Token} {l : Lexeme} {op : Operation} {e : Expr} {ends : Ends} {last : Option Location}

theorem operand?_eq_none_iff :
    operand? t = none ↔ (∃ s, t.lexeme = .symbol s) ∨ ∃ k, t.lexeme = .keyword k := by
  unfold operand?
  split <;> simp_all

attribute [local simp] Operation.ofLexeme? Operation.ofSymbol Operation.ofKeyword Lexeme.starts Lexeme.continues

theorem ofLexeme?_starts (h : Operation.ofLexeme? l true = some op) :
    l.starts ∧ ((∃ s, l = .symbol s) ∨ ∃ k, l = .keyword k) := by
  cases l with
  | symbol s => cases s <;> simp_all
  | keyword k => cases k <;> simp_all
  | _ => simp at h

theorem container?_of_ofLexeme? (h : Operation.ofLexeme? l true = some op) :
    container? nested l = none := by
  cases l with
  | symbol s => cases s <;> first | rfl | simp at h
  | _ => rfl

theorem ofLexeme?_continues (h : Operation.ofLexeme? l false = some op) :
    l.continues ∧ ((∃ s, l = .symbol s) ∨ ∃ k, l = .keyword k) := by
  cases l with
  | symbol s => cases s <;> simp_all
  | keyword k => cases k <;> simp_all
  | _ => simp at h

variable {N : List Token → Expr → Prop}

/-- A form starts with its opening bracket. -/
theorem FormReading.head (h : FormReading N us e) :
    ∃ t vs, us = t :: vs ∧ (t.lexeme = .symbol .parenLeft ∨
      t.lexeme = .symbol .squareLeft ∨ t.lexeme = .symbol .curlyLeft) := by
  cases h with
  | group hopen | point hopen => exact ⟨_, _, rfl, .inl hopen⟩
  | list hopen => exact ⟨_, _, rfl, .inr (.inl hopen)⟩
  | conditional hopen => exact ⟨_, _, rfl, .inr (.inr hopen)⟩

/-- A turn starts with a word that can start an expression where an operand is expected, and with
one that continues an expression elsewhere. -/
theorem Turn.head (h : Turn N s b us s' b') :
    ∃ t vs, us = t :: vs ∧ (if b = true then t.lexeme.starts else t.lexeme.continues) := by
  cases h with
  | @operand t e hoperand =>
    refine ⟨t, [], rfl, ?_⟩
    unfold operand? at hoperand
    split at hoperand <;> simp_all
  | form hform =>
    obtain ⟨t, vs, rfl, ht⟩ := hform.head
    rcases ht with ht | ht | ht <;> simp [ht]
  | operator hop =>
    refine ⟨_, _, rfl, ?_⟩
    cases b with
    | true => exact (ofLexeme?_starts hop).1
    | false => exact (ofLexeme?_continues hop).1
  | call hopen | index hopen => exact ⟨_, _, rfl, by simp [hopen]⟩
  | actionCall haction => exact ⟨_, _, rfl, by simp [haction]⟩

theorem run_step_form (hform : FormReading (Reads nested) (t :: vs) e) :
    (step nested ends s true t).run ⟨t :: vs ++ rest, last⟩ = .ok (s.push e, false) ⟨rest, last⟩ := by
  obtain ⟨t', vs', hcons, ht⟩ := hform.head
  obtain ⟨rfl, rfl⟩ := List.cons.inj hcons
  have hoperand : operand? t = none :=
    operand?_eq_none_iff.2 (.inl (by rcases ht with ht | ht | ht <;> exact ⟨_, ht⟩))
  unfold step
  simp only [hoperand, if_true]
  rcases ht with ht | ht | ht <;> simp only [ht, container?]
  · rw [run_bind_of_ok (run_paren hform rfl ht)]
    rfl
  · rw [run_bind_of_ok (run_list hform rfl ht)]
    rfl
  · rw [run_bind_of_ok (run_conditional hform rfl ht)]
    rfl

/-- A word that writes an operation lets the operators that precede it take their operands, and
then pushes the operation. -/
theorem run_step_operator {s₁ : Stacks} (hop : Operation.ofLexeme? t.lexeme b = some op)
    (hsettles : Settles op s.operators s.operands s₁) (c : Cursor) :
    (step nested ends s b t).run c =
      (do
        let result ← pushOperator nested op s₁
        advance
        return result : Parser (Stacks × Bool)).run c := by
  have hoperand : operand? t = none := by
    rw [operand?_eq_none_iff]
    cases b with
    | true => exact (ofLexeme?_starts hop).2
    | false => exact (ofLexeme?_continues hop).2
  have hform : (if b = true then container? nested t.lexeme else none) = none := by
    cases b with
    | true => exact container?_of_ofLexeme? hop
    | false => rfl
  unfold step
  simp only [hoperand, hform, hop]
  rw [run_bind_of_ok (run_reduceBefore_eq_ok.2 ⟨rfl, hsettles⟩)]

theorem run_step (hturn : Turn (Reads nested) s b (t :: vs) s' b') :
    (step nested ends s b t).run ⟨t :: vs ++ rest, last⟩ = .ok (s', b') ⟨rest, last⟩ := by
  cases hturn with
  | operand hoperand =>
    unfold step
    simp only [hoperand, if_true]
    rfl
  | form hform => exact run_step_form hform
  | operator hop hwaits hsettles =>
    rw [run_step_operator hop hsettles, run_bind_of_ok (run_pushOperator_of_waits hwaits _ _)]
    rfl
  | @call ps f operands args ts opener closer hopen hsettles hargs hclose =>
    rw [run_step_operator (by simp [hopen]) hsettles, pushOperator]
    simp only [bind_assoc, append_eq, append_assoc, cons_append, nil_append]
    rw [run_bind_of_ok (run_callWith hopen hargs hclose),
      run_bind_of_ok (run_reduce_call_eq_ok.2 ⟨rfl, f, operands, rfl, rfl⟩), pure_bind]
    rfl
  | actionCall haction hname hopen hsettles hargs hclose =>
    rw [run_step_operator (by simp [haction]) hsettles, pushOperator]
    simp only [bind_assoc, append_eq, append_assoc, cons_append, nil_append]
    rw [run_advance_bind, run_token_bind,
      run_bind_of_ok (run_expectName_eq_ok.2 ⟨rfl, _, _, rfl, hname⟩),
      run_advance_bind,
      run_bind_of_ok (run_callWith hopen hargs hclose),
      run_bind_of_ok (run_reduce_call_eq_ok.2 ⟨rfl, _, _, rfl, rfl⟩), pure_bind]
    rfl
  | @index ps list i operands ts opener closer hopen hsettles hnumber hclose =>
    rw [run_step_operator (by simp [hopen]) hsettles, pushOperator]
    simp only [bind_assoc, append_eq, append_assoc, cons_append, nil_append]
    rw [run_advance_bind, run_bind_of_ok (hnumber.run rfl (by simp [hclose]) _ _),
      run_bind_of_ok (run_reduce_eq_ok.2 ⟨rfl, by simp, rfl⟩), pure_bind]
    rfl

theorem run_loop (hread : Reading (Reads nested) s b us e) (hends : ends.areOutside)
    (ht : ends.contains t.lexeme) {fuel : Nat} (hfuel : us.length < fuel) :
    (loop nested ends fuel s b).run ⟨us ++ t :: rest, last⟩ = .ok e ⟨t :: rest, last⟩ := by
  induction hread generalizing fuel with
  | finish hcollapses =>
    obtain _ | fuel := fuel
    · omega
    rw [loop, nil_append, run_token_bind]
    simp only [ht, Bool.not_false, Bool.true_or, Bool.and_self, if_true, finish,
      Bool.false_eq_true, if_false]
    rw [run_bind_of_ok (run_reduceAll_eq_ok.2 ⟨rfl, hcollapses⟩)]
    rfl
  | turn hturn hrest ih =>
    obtain _ | fuel := fuel
    · omega
    obtain ⟨u, vs, rfl, hu⟩ := hturn.head
    rw [loop, append_assoc, cons_append, run_token_bind]
    -- No end can start the turn.
    have hnot : ends.contains u.lexeme = false := by
      rw [Bool.eq_false_iff]
      intro hcontains
      obtain ⟨hstarts, hcontinues⟩ := Ends.not_starts_of_areOutside hends hcontains
      rw [hstarts, hcontinues, ite_self] at hu
      cases hu
    simp only [hnot, Bool.and_false, Bool.false_eq_true, if_false]
    rw [← cons_append, run_bind_of_ok (run_step hturn)]
    exact ih (by simp at hfuel; omega)

theorem reads_exprWith {ts : List Token} (hread : Reading (Reads nested) .empty true ts e) :
    Reads (exprWith nested) ts e := by
  constructor
  · cases hread with
    | turn hturn hrest =>
      obtain ⟨t, vs, rfl, ht⟩ := hturn.head
      exact ⟨t, _, rfl, ht⟩
  · intro ends hends t ht rest last
    unfold exprWith
    exact run_loop hread hends ht Cursor.length_lt_budget

end Loop

end Diagram.Parser
