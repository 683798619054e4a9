import Diagram.Proofs.Parser.Printed
import Diagram.Proofs.Program.Printing

/-!
# Parsers of printed words

A logic for parsers that run over known words, wherever those stand in a source.  It says which
words a parser leaves and what it gives, and follows the way parsers are composed.

Main statements: `takes_expr`, `takes_untilSymbol`.
-/

namespace Diagram.Parser

open List

variable {α β : Type} {ls ms rest : List Lexeme} {l : Lexeme}

/-- A parser that starts at the words `ls` leaves `rest`, and gives what satisfies `P`. -/
def Takes (p : Parser α) (ls rest : List Lexeme) (P : α → Prop) : Prop :=
  ∀ ts last, ts.map Token.lexeme = ls →
    ∃ a us, p.run ⟨ts, last⟩ = .ok a ⟨us, last⟩ ∧ us.map Token.lexeme = rest ∧ P a

section Rules

variable {p q : Parser α} {f : α → Parser β} {P : α → Prop} {Q : β → Prop}

theorem Takes.bind (hp : Takes p ls ms P) (hf : ∀ a, P a → Takes (f a) ms rest Q) :
    Takes (p >>= f) ls rest Q := by
  intro ts last hts
  obtain ⟨a, us, hfirst, hus, ha⟩ := hp ts last hts
  obtain ⟨b, vs, hsecond, hvs, hb⟩ := hf a ha us last hus
  exact ⟨b, vs, run_bind_eq_ok.2 ⟨a, _, hfirst, hsecond⟩, hvs, hb⟩

protected theorem Takes.pure {a : α} (h : P a) : Takes (pure a) ls ls P :=
  fun ts _ hts => ⟨a, ts, rfl, hts, h⟩

variable {b : Prop}

protected theorem Takes.pos [Decidable b] (hb : b) (h : Takes p ls rest P) :
    Takes (if b then p else q) ls rest P := by
  rw [if_pos hb]
  exact h

protected theorem Takes.neg [Decidable b] (hb : ¬b) (h : Takes q ls rest P) :
    Takes (if b then p else q) ls rest P := by
  rw [if_neg hb]
  exact h

/-- A loop is given a turn more than there are words. -/
theorem takes_budget (k : Nat → Parser α) (h : Takes (k (ls.length + 1)) ls rest P) :
    Takes (get >>= fun c => k c.budget) ls rest P := by
  rintro ts last rfl
  rw [length_map] at h
  exact h ts last rfl

end Rules

section Tokens

theorem takes_token? :
    Takes token? (l :: ls) (l :: ls) fun o => ∃ t, o = some t ∧ t.lexeme = l := by
  intro ts last hts
  obtain ⟨t, us, rfl, ht, -⟩ := map_eq_cons_iff.1 hts
  exact ⟨some t, _, rfl, hts, t, rfl, ht⟩

theorem takes_token {missing : Cause} :
    Takes (token missing) (l :: ls) (l :: ls) (·.lexeme = l) := by
  intro ts last hts
  obtain ⟨t, us, rfl, ht, -⟩ := map_eq_cons_iff.1 hts
  exact ⟨t, _, rfl, hts, ht⟩

theorem takes_advance : Takes advance (l :: ls) ls fun _ => True := by
  intro ts last hts
  obtain ⟨t, us, rfl, -, hus⟩ := map_eq_cons_iff.1 hts
  exact ⟨(), us, rfl, hus, trivial⟩

theorem Takes.skip {p : Parser α} {P : α → Prop} (h : Takes p ls rest P) :
    Takes (advance >>= fun _ => p) (l :: ls) rest P :=
  takes_advance.bind fun _ _ => h

variable {s : Symbol} {k : Keyword}

theorem takes_atSymbol : Takes (atSymbol s) (l :: ls) (l :: ls) (· = decide (l = .symbol s)) :=
  takes_token.bind fun _ ht => .pure (by rw [ht])

theorem takes_atKeyword : Takes (atKeyword k) (l :: ls) (l :: ls) (· = decide (l = .keyword k)) :=
  takes_token.bind fun _ ht => .pure (by rw [ht])

theorem takes_seesSymbol :
    Takes (seesSymbol s) (l :: ls) (l :: ls) (· = decide (l = .symbol s)) := by
  refine takes_token?.bind fun o ho => .pure ?_
  obtain ⟨t, rfl, rfl⟩ := ho
  rfl

theorem takes_seesKeyword :
    Takes (seesKeyword k) (l :: ls) (l :: ls) (· = decide (l = .keyword k)) := by
  refine takes_token?.bind fun o ho => .pure ?_
  obtain ⟨t, rfl, rfl⟩ := ho
  rfl

variable {p q : Parser α} {P : α → Prop}

theorem takes_ifSymbol (h : Takes p (.symbol s :: ls) rest P) :
    Takes (do if ← atSymbol s then p else q) (.symbol s :: ls) rest P :=
  takes_atSymbol.bind fun _ hb => .pos (by simp [hb]) h

theorem takes_elseSymbol (hl : l ≠ .symbol s) (h : Takes q (l :: ls) rest P) :
    Takes (do if ← atSymbol s then p else q) (l :: ls) rest P :=
  takes_atSymbol.bind fun _ hb => .neg (by simp [hb, hl]) h

theorem takes_ifKeyword (h : Takes p (.keyword k :: ls) rest P) :
    Takes (do if ← atKeyword k then p else q) (.keyword k :: ls) rest P :=
  takes_atKeyword.bind fun _ hb => .pos (by simp [hb]) h

theorem takes_elseKeyword (hl : l ≠ .keyword k) (h : Takes q (l :: ls) rest P) :
    Takes (do if ← atKeyword k then p else q) (l :: ls) rest P :=
  takes_atKeyword.bind fun _ hb => .neg (by simp [hb, hl]) h

theorem takes_expectSymbol :
    Takes (expectSymbol s) (.symbol s :: ls) (.symbol s :: ls) fun _ => True :=
  takes_token.bind fun _ ht => .pos ht (.pure trivial)

theorem takes_expectOneOf {ends : Ends} (hl : ends.contains l) :
    Takes (expectOneOf ends) (l :: ls) (l :: ls) fun _ => True :=
  takes_token.bind fun _ ht => .pos (by rw [ht]; exact hl) (.pure trivial)

theorem takes_expectName {n : String} :
    Takes expectName (.name n :: ls) (.name n :: ls) (· = n) := by
  refine takes_token.bind fun t ht => ?_
  rw [ht]
  exact .pure rfl

def skipped (s : Symbol) : List Lexeme → List Lexeme
  | [] => []
  | l :: ls => if l = .symbol s then ls else l :: ls

theorem skipped_symbol : skipped s (.symbol s :: ls) = ls :=
  if_pos rfl

theorem skipped_of_ne (hl : l ≠ .symbol s) : skipped s (l :: ls) = l :: ls :=
  if_neg hl

theorem takes_skipSymbol (ls : List Lexeme) :
    Takes (skipSymbol s) ls (skipped s ls) fun _ => True := by
  cases ls with
  | nil =>
    intro ts last hts
    obtain rfl := map_eq_nil_iff.1 hts
    exact ⟨(), [], rfl, rfl, trivial⟩
  | cons l ls =>
    refine takes_seesSymbol.bind fun b hb => ?_
    by_cases hl : l = .symbol s
    · rw [hl, skipped_symbol]
      exact .pos (by simp [hb, hl]) takes_advance
    · rw [skipped_of_ne hl]
      exact .neg (by simp [hb, hl]) (.pure trivial)

end Tokens

variable {e : Expr}

theorem takes_expr {ends : Ends} (hends : ends.areOutside) (he : e.Prints ls)
    (hl : ends.contains l) :
    Takes (expr ends) (ls ++ l :: rest) (l :: rest) fun e' => e'.unplaced = e.unplaced := by
  obtain ⟨o, h⟩ := he
  refine takes_budget (exprWithin · ends) fun ts last hts => ?_
  obtain ⟨us, t, vs, rfl, rfl, rfl, rfl⟩ := exists_split hts
  have hdepth :
      us.length < (us.map Token.lexeme ++ t.lexeme :: vs.map Token.lexeme).length + 1 := by
    rw [length_append, length_map]
    omega
  obtain ⟨e', hread, he'⟩ := nests_exprWithin _ hdepth h
  exact ⟨e', t :: vs, hread.run hends hl vs last, rfl, he'⟩

theorem exists_starts (he : e.Prints ls) : ∃ l us, ls = l :: us ∧ l.starts := by
  obtain ⟨o, h⟩ := he
  have hls : (tokensOf ls).map Token.lexeme = ls := by simp [tokensOf, Function.comp_def]
  rw [← hls] at h
  obtain ⟨e', hread, -⟩ := nests_exprWithin _ (Nat.lt_succ_self _) h
  obtain ⟨t, us, heq, ht⟩ := hread.starts
  rw [heq] at hls
  exact ⟨t.lexeme, _, hls.symm, ht⟩

theorem ne_of_starts {l' : Lexeme} (hl : l.starts) (hl' : l'.starts = false) : l ≠ l' := by
  rintro rfl
  rw [hl] at hl'
  cases hl'

section Separated

variable {separator close : Symbol} {W : α → List Lexeme → Prop} {item : Parser α} {f : α → β}

/-- A parser reads one item from its words, and skips the separator behind it. -/
structure TakesItem (separator close : Symbol) (item : Parser α) (f : α → β) (ls : List Lexeme)
    (a : α) : Prop where
  starts : ∃ l us, ls = l :: us ∧ l ≠ .symbol close ∧ l ≠ .symbol separator
  last : ∀ {rest : List Lexeme},
    Takes item (ls ++ .symbol close :: rest) (.symbol close :: rest) (f · = f a)
  next : ∀ {l : Lexeme} {rest : List Lexeme}, l ≠ .symbol separator →
    Takes item (ls ++ .symbol separator :: l :: rest) (l :: rest) (f · = f a)

variable {as : List α} {a : α}

/-- The items up to the closing symbol are read if there are more turns than words. -/
def TakesAll (close : Symbol) (item : Parser α) (f : α → β) (ls rest : List Lexeme)
    (as : List α) : Prop :=
  ∀ fuel, ls.length < fuel →
    Takes (untilSymbolIn close item fuel) ls rest fun as' => as'.map f = as.map f

theorem TakesAll.takes (h : TakesAll close item f ls rest as) :
    Takes (untilSymbol close item) ls rest fun as' => as'.map f = as.map f :=
  takes_budget (untilSymbolIn close item) (h _ (Nat.lt_succ_self _))

theorem takesAll_nil :
    TakesAll close item f (.symbol close :: rest) (.symbol close :: rest) [] := by
  intro fuel hfuel
  obtain _ | fuel := fuel
  · omega
  exact takes_ifSymbol (.pure rfl)

theorem takesAll_cons (hl : l ≠ .symbol close) (ha : Takes item (l :: ls) ms (f · = f a))
    (hlength : ms.length ≤ ls.length) (has : TakesAll close item f ms rest as) :
    TakesAll close item f (l :: ls) rest (a :: as) := by
  intro fuel hfuel
  rw [length_cons] at hfuel
  obtain _ | fuel := fuel
  · omega
  refine takes_elseSymbol hl (ha.bind fun a' ha' => ?_)
  refine (has fuel (by omega)).bind fun as' has' => .pure ?_
  rw [map_cons, map_cons, ha', has']

/-- Items are read up to the closing symbol.  The induction is on how they are separated, with the
closing symbol behind all of them. -/
theorem takesAll_of_separated (hne : close ≠ separator)
    (hitem : ∀ {a : α} {ls : List Lexeme}, W a ls → TakesItem separator close item f ls a)
    (h : Separated separator W as ls) :
    TakesAll close item f (ls ++ .symbol close :: rest) (.symbol close :: rest) as := by
  induction h with
  | nil => exact takesAll_nil
  | last ha =>
    have hone := hitem ha
    obtain ⟨l, us, rfl, hl, -⟩ := hone.starts
    exact takesAll_cons hl hone.last (by simp) takesAll_nil
  | @cons a as ls ms ha has ih =>
    have hone := hitem ha
    obtain ⟨l, us, rfl, hl, -⟩ := hone.starts
    -- The word behind the separator starts another item, or it is the closing one.
    obtain ⟨u, us', hrest, hu⟩ : ∃ u us', ms ++ .symbol close :: rest = u :: us' ∧
        u ≠ .symbol separator := by
      cases has with
      | nil => exact ⟨_, rest, rfl, by simpa using hne⟩
      | last ha' | cons ha' _ =>
        obtain ⟨u, us', rfl, -, hu⟩ := (hitem ha').starts
        exact ⟨u, _, rfl, hu⟩
    rw [append_assoc]
    refine takesAll_cons hl ?_ (by simp; omega) ih
    rw [cons_append, hrest]
    exact hone.next hu

theorem takes_untilSymbol (hne : close ≠ separator)
    (hitem : ∀ {a : α} {ls : List Lexeme}, W a ls → TakesItem separator close item f ls a)
    (h : Separated separator W as ls) :
    Takes (untilSymbol close item) (ls ++ .symbol close :: rest) (.symbol close :: rest)
      fun as' => as'.map f = as.map f :=
  (takesAll_of_separated hne hitem h).takes

/-- An item whose parser skips a comma behind it, if there is one. -/
theorem takesItem_of_skipped (hne : close ≠ .comma)
    (hstarts : ∃ l us, ls = l :: us ∧ l ≠ .symbol close ∧ l ≠ .symbol .comma)
    (hread : ∀ l rest, l = .symbol .comma ∨ l = .symbol close →
      Takes item (ls ++ l :: rest) (skipped .comma (l :: rest)) (f · = f a)) :
    TakesItem .comma close item f ls a where
  starts := hstarts
  last {rest} := by
    have hlast := hread _ rest (.inr rfl)
    rwa [skipped_of_ne (by simpa using hne)] at hlast
  next {l rest} _ := by
    have hnext := hread _ (l :: rest) (.inl rfl)
    rwa [skipped_symbol] at hnext

end Separated

/-- The arguments of a call leave the closing parenthesis under the cursor. -/
theorem takes_call {args : List Expr} (h : Separated .comma Expr.Prints args ls) :
    Takes call (.symbol .parenLeft :: (ls ++ .symbol .parenRight :: rest))
      (.symbol .parenRight :: rest)
      fun args' => args'.map Expr.unplaced = args.map Expr.unplaced := by
  refine takes_expectSymbol.bind fun _ _ => .skip ?_
  refine takes_untilSymbol (by decide) (fun {e ls} he => ?_) h
  refine takesItem_of_skipped (by decide) ?_ fun l rest hl => (takes_expr rfl he ?_).bind
    fun _ he' => (takes_skipSymbol _).bind fun _ _ => .pure he'
  · obtain ⟨l, us, rfl, hl⟩ := exists_starts he
    exact ⟨l, us, rfl, ne_of_starts hl rfl, ne_of_starts hl rfl⟩
  · rcases hl with rfl | rfl <;> rfl

end Diagram.Parser
