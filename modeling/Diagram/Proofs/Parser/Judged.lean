import Diagram.Proofs.Parser.Balance
import Diagram.Proofs.Parser.Shape

/-!
# Where parsers fail

A logic for parsers on a cursor with a bounded number of tokens left.  A parser that is judged
gives a value and leaves a cursor as it is told, or fails where a token starts or stops, with a cause
that lies in the tokens.  The bounds go down with each token that is taken, so that they also say
that no loop runs out of turns and no expression out of levels.

Main statement: `judged_expr`.
-/

namespace Diagram

open List

/-- An area starts where one of some tokens starts or stops. -/
def Area.Touches (tokens : List Token) (a : Area) : Prop :=
  ∃ t ∈ tokens, a.start = some t.start ∨ a.start = some t.stop

theorem Area.Among.touches {tokens : List Token} {a : Area} (h : a.Among tokens) :
    a.Touches tokens := by
  obtain ⟨⟨t, ht, hstart⟩, -⟩ := h
  exact ⟨t, ht, .inl hstart⟩

namespace Cursor

/-- A cursor over some of the tokens that knows where one of them stops. -/
structure Over (tokens : List Token) (c : Cursor) : Prop where
  rest : c.rest ⊆ tokens
  last : ∃ t ∈ tokens, c.last = some t.stop

def Left (n : Nat) (c : Cursor) : Prop :=
  c.rest.length ≤ n

/-- At most `n` tokens are left, the first of which is `t`. -/
def At (n : Nat) (t : Token) (c : Cursor) : Prop :=
  c.Left n ∧ c.rest.head? = some t

/-- At least one and at most `n` tokens are left. -/
def On (n : Nat) (c : Cursor) : Prop :=
  ∃ t, c.At n t

variable {tokens : List Token} {c : Cursor} {n m : Nat} {t : Token}

theorem Left.mono (h : c.Left n) (hnm : n ≤ m) : c.Left m :=
  Nat.le_trans h hnm

theorem At.on (h : c.At n t) : c.On n :=
  ⟨t, h⟩

theorem On.left (h : c.On n) : c.Left n := by
  obtain ⟨t, hleft, -⟩ := h
  exact hleft

theorem On.mono (h : c.On n) (hnm : n ≤ m) : c.On m := by
  obtain ⟨t, hleft, hhead⟩ := h
  exact ⟨t, hleft.mono hnm, hhead⟩

theorem On.pos (h : c.On n) : 0 < n := by
  obtain ⟨t, hleft, hhead⟩ := h
  have hlength : 0 < c.rest.length := by
    obtain ⟨ts, hts⟩ := head?_eq_some_iff.1 hhead
    simp [hts]
  exact Nat.lt_of_lt_of_le hlength hleft

theorem Over.mem (h : c.Over tokens) (ht : c.At n t) : t ∈ tokens :=
  h.rest (mem_of_head? ht.2)

theorem Over.touches (h : c.Over tokens) (ht : c.At n t) {a : Area} (ha : a.start = some t.start) :
    a.Touches tokens :=
  ⟨t, h.mem ht, .inl ha⟩

end Cursor

namespace Parser

open Cursor

variable {α β : Type} {tokens : List Token} {P P' : Cursor → Prop} {n m : Nat} {t : Token}

/-- Whether a cause is not in the tokens but in the parser: a loop has no turn left, there is no
token where one is relied on, or operands are left over. -/
def Cause.isInternal : Cause → Bool
  | .exhausted | .absent | .leftOperands _ => true
  | _ => false

/-- A failure where one of the tokens starts or stops, which the tokens cause. -/
structure Refuses (tokens : List Token) (e : Located Cause) : Prop where
  touches : e.area.Touches tokens
  cause : e.cause.isInternal = false

/-- On a cursor that satisfies `P` a parser gives a value and leaves a cursor that satisfy `Q`, or
it refuses one of the tokens. -/
def Judged (tokens : List Token) (P : Cursor → Prop) (p : Parser α) (Q : α → Cursor → Prop) :
    Prop :=
  ∀ c, c.Over tokens → P c →
    match p.run c with
    | .ok a d => d.Over tokens ∧ Q a d
    | .error e _ => Refuses tokens e

variable {V : α → Prop}

section Rules

variable {p q : Parser α} {f : α → Parser β} {Q Q' : α → Cursor → Prop} {R : β → Cursor → Prop}

theorem Judged.mono (h : Judged tokens P p Q) (hP : ∀ c, P' c → P c)
    (hQ : ∀ a c, Q a c → Q' a c) : Judged tokens P' p Q' := by
  intro c hc hpre
  have hrun := h c hc (hP c hpre)
  cases hresult : p.run c with
  | ok a d =>
    rw [hresult] at hrun
    exact ⟨hrun.1, hQ a d hrun.2⟩
  | error e d =>
    rw [hresult] at hrun
    exact hrun

theorem Judged.pre (h : Judged tokens P p Q) (hP : ∀ c, P' c → P c) : Judged tokens P' p Q :=
  h.mono hP fun _ _ hpost => hpost

theorem Judged.post (h : Judged tokens P p Q) (hQ : ∀ a c, Q a c → Q' a c) :
    Judged tokens P p Q' :=
  h.mono (fun _ hpre => hpre) hQ

theorem Judged.ofOn (h : Judged tokens (Left n) p Q) : Judged tokens (On n) p Q :=
  h.pre fun _ hon => hon.left

theorem Judged.ofAt (h : Judged tokens (On n) p Q) : Judged tokens (At n t) p Q :=
  h.pre fun _ ht => ht.on

theorem Judged.bind (hp : Judged tokens P p Q) (hf : ∀ a, Judged tokens (Q a) (f a) R) :
    Judged tokens P (p >>= f) R := by
  intro c hc hpre
  have hfirst := hp c hc hpre
  show match EStateM.bind p f c with
    | .ok a d => d.Over tokens ∧ R a d
    | .error e _ => Refuses tokens e
  unfold EStateM.bind
  change match p c with
    | .ok a d => d.Over tokens ∧ Q a d
    | .error e _ => Refuses tokens e at hfirst
  cases hresult : p c with
  | ok a d =>
    rw [hresult] at hfirst
    exact hf a d hfirst.1 hfirst.2
  | error e d =>
    rw [hresult] at hfirst
    exact hfirst

/-- A condition that does not depend on the cursor may be assumed. -/
theorem judged_of_imp {φ : Prop} (hφ : ∀ c, c.Over tokens → P c → φ)
    (h : φ → Judged tokens P p Q) : Judged tokens P p Q :=
  fun c hc hpre => h (hφ c hc hpre) c hc hpre

/-- What follows knows of the value that it is given, apart from the cursor. -/
theorem Judged.bindValue (hp : Judged tokens P p fun a c => P' c ∧ V a)
    (hf : ∀ a, V a → Judged tokens P' (f a) R) : Judged tokens P (p >>= f) R :=
  hp.bind fun a => judged_of_imp (fun _ _ h => h.2) fun ha => (hf a ha).pre fun _ h => h.1

protected theorem Judged.pure {a : α} (h : ∀ c, c.Over tokens → P c → Q a c) :
    Judged tokens P (pure a) Q :=
  fun c hc hpre => ⟨hc, h c hc hpre⟩

protected theorem Judged.give {a : α} (ha : V a) :
    Judged tokens P (pure a) fun a c => P c ∧ V a :=
  .pure fun _ _ hpre => ⟨hpre, ha⟩

/-- What holds whenever a parser gives a value may be added to what it is told. -/
theorem Judged.also (h : Judged tokens P p Q)
    (hV : ∀ c a d, c.Over tokens → P c → p.run c = .ok a d → V a) :
    Judged tokens P p fun a c => Q a c ∧ V a := by
  intro c hc hpre
  have hrun := h c hc hpre
  cases hresult : p.run c with
  | ok a d =>
    rw [hresult] at hrun
    exact ⟨hrun.1, hrun.2, hV c a d hc hpre hresult⟩
  | error e d =>
    rw [hresult] at hrun
    exact hrun

protected theorem Judged.failAt {area : Area} {cause : Cause} (hcause : cause.isInternal = false)
    (h : ∀ c, c.Over tokens → P c → area.Touches tokens) : Judged tokens P (failAt area cause) Q :=
  fun c hc hpre => ⟨h c hc hpre, hcause⟩

/-- The token under the cursor is refused. -/
protected theorem Judged.refuse {area : Area} {cause : Cause} (hcause : cause.isInternal = false)
    (harea : area.start = some t.start) : Judged tokens (At n t) (failAt area cause) Q :=
  .failAt hcause fun _ hc ht => hc.touches ht harea

variable {b : Prop}

protected theorem Judged.ite [Decidable b] (hp : b → Judged tokens P p Q)
    (hq : ¬b → Judged tokens P q Q) : Judged tokens P (if b then p else q) Q := by
  split
  case isTrue h => exact hp h
  case isFalse h => exact hq h

/-- Two parsers that go on alike. -/
theorem judged_ite_bind [Decidable b] (hp : b → Judged tokens P p fun a c => P' c ∧ V a)
    (hq : ¬b → Judged tokens P q fun a c => P' c ∧ V a) (hf : ∀ a, V a → Judged tokens P' (f a) R) :
    Judged tokens P (if b then p >>= f else q >>= f) R :=
  .ite (fun h => (hp h).bindValue hf) fun h => (hq h).bindValue hf

protected theorem Judged.when [Decidable b] {p : Parser Unit} {k : Unit → Parser α}
    (hp : Judged tokens P p fun _ => P') (hskip : ∀ c, P c → P' c)
    (hk : ∀ u, Judged tokens P' (k u) Q) : Judged tokens P (if b then p >>= k else k ()) Q :=
  .ite (fun _ => hp.bind hk) fun _ => (hk ()).pre hskip

/-- A loop is given a turn more than there are tokens left. -/
theorem judged_budget_of_length (k : Nat → Parser α) {Q : α → Cursor → Prop}
    (h : ∀ j, Judged tokens (fun c => P c ∧ c.rest.length = j) (k (j + 1)) Q) :
    Judged tokens P (get >>= fun c => k c.budget) Q :=
  fun c hc hpre => h c.rest.length c hc ⟨hpre, rfl⟩

theorem judged_budget (k : Nat → Parser α) {Q : α → Cursor → Prop}
    (h : ∀ j ≤ n, Judged tokens (Left j) (k (j + 1)) Q) :
    Judged tokens (Left n) (get >>= fun c => k c.budget) Q := by
  refine judged_budget_of_length k fun j => ?_
  refine judged_of_imp (fun c _ hpre => ?_) fun hj => (h j hj).pre fun c hpre => ?_
  · exact hpre.2 ▸ hpre.1
  · exact Nat.le_of_eq hpre.2

protected theorem Judged.on {p : Parser α} {Q : α → Cursor → Prop}
    (h : ∀ k, n = k + 1 → Judged tokens (On (k + 1)) p Q) : Judged tokens (On n) p Q := by
  intro c hc hon
  obtain ⟨k, rfl⟩ : ∃ k, n = k + 1 := ⟨n - 1, by have := hon.pos; omega⟩
  exact h k rfl c hc hon

end Rules

section Tokens

theorem judged_token : Judged tokens (Left n) token (At n) := by
  intro c hc hleft
  obtain ⟨rest, last⟩ := c
  cases rest with
  | nil =>
    obtain ⟨t, ht, hlast⟩ := hc.last
    exact ⟨⟨t, ht, .inr hlast⟩, rfl⟩
  | cons t ts => exact ⟨hc, hleft, rfl⟩

/-- A token that is under the cursor is found, whatever its lack would be the cause of. -/
theorem judged_token_on {missing : Cause} : Judged tokens (On n) (token missing) (At n) := by
  intro c hc hon
  obtain ⟨t, hleft, hhead⟩ := hon
  obtain ⟨ts, hts⟩ := head?_eq_some_iff.1 hhead
  rw [run_token_eq_ok.2 ⟨rfl, ts, hts⟩]
  exact ⟨hc, hleft, hhead⟩

theorem judged_advance_of (h : ∀ c, P c → c.rest.length - 1 ≤ n) :
    Judged tokens P advance fun _ => Left n := by
  intro c hc hpre
  refine ⟨⟨fun u hu => hc.rest (mem_of_mem_tail hu), hc.last⟩, ?_⟩
  show c.rest.tail.length ≤ n
  rw [length_tail]
  exact h c hpre

theorem judged_advance : Judged tokens (On (n + 1)) advance fun _ => Left n :=
  judged_advance_of fun _ hon => Nat.sub_le_of_le_add hon.left

theorem Judged.skip (h : Judged tokens (Left n) p Q) :
    Judged tokens (On (n + 1)) (advance >>= fun _ => p) Q :=
  judged_advance.bind fun _ => h

theorem judged_advance_left : Judged tokens (Left n) advance fun _ => Left n :=
  judged_advance_of fun _ hleft => Nat.le_trans (Nat.sub_le _ 1) hleft

theorem judged_advance_on : Judged tokens (On n) advance fun _ => Left n :=
  judged_advance_left.ofOn

theorem judged_token? : Judged tokens P token? fun t? c => P c ∧ t? = c.rest.head? :=
  fun _ hc hpre => ⟨hc, hpre, rfl⟩

variable {s close : Symbol} {k : Keyword} {item : Parser α} {fuel : Nat}

theorem judged_atSymbol : Judged tokens (Left n) (atSymbol s) fun _ => On n :=
  judged_token.bind fun _ => .pure fun _ _ ht => ht.on

theorem judged_atKeyword : Judged tokens (Left n) (atKeyword k) fun _ => On n :=
  judged_token.bind fun _ => .pure fun _ _ ht => ht.on

theorem judged_sees {seen : Token → Bool} :
    Judged tokens P (do return (← token?).any seen) fun b c =>
      P c ∧ (b → ∃ t, c.rest.head? = some t ∧ seen t) := by
  refine judged_token?.bind fun t? => .pure fun c _ h => ⟨h.1, fun hb => ?_⟩
  obtain ⟨-, rfl⟩ := h
  simpa [Option.any_eq_true] using hb

theorem judged_seesSymbol : Judged tokens (Left n) (seesSymbol s) fun b c =>
    c.Left n ∧ (b → c.On n) := by
  refine judged_sees.post fun b c h => ⟨h.1, fun hb => ?_⟩
  obtain ⟨t, ht, -⟩ := h.2 hb
  exact ⟨t, h.1, ht⟩

theorem judged_seesKeyword : Judged tokens (Left n) (seesKeyword k) fun b c =>
    c.Left n ∧ (b → ∃ t, c.At n t ∧ t.lexeme = .keyword k) := by
  refine judged_sees.post fun b c h => ⟨h.1, fun hb => ?_⟩
  obtain ⟨t, ht, hlexeme⟩ := h.2 hb
  exact ⟨t, ⟨h.1, ht⟩, of_decide_eq_true hlexeme⟩

theorem judged_skipSymbol : Judged tokens (Left n) (skipSymbol s) fun _ => Left n :=
  judged_seesSymbol.bind fun _ => .ite
    (fun _ => judged_advance_left.pre fun _ h => h.1)
    fun _ => .pure fun _ _ h => h.1

theorem judged_expectSymbol : Judged tokens (Left n) (expectSymbol s) fun _ => On n := by
  refine judged_token.bind fun t => .ite (fun _ => ?_) fun _ => .refuse rfl rfl
  exact .pure fun _ _ ht => ht.on

theorem judged_expectOneOf {ends : Ends} :
    Judged tokens (Left n) (expectOneOf ends) fun _ => On n := by
  refine judged_token.bind fun t => .ite (fun _ => ?_) fun _ => .refuse rfl rfl
  exact .pure fun _ _ ht => ht.on

theorem judged_expectName :
    Judged tokens (Left n) expectName fun m c => c.On n ∧ Token.Spells tokens m := by
  refine judged_token.bind fun t => ?_
  split
  case h_1 m hname => exact .pure fun _ hc ht => ⟨ht.on, t, hc.mem ht, hname⟩
  case h_2 => exact .refuse rfl rfl

/-- A loop up to a closing symbol has enough turns if each of its items takes a token. -/
theorem judged_untilSymbolIn (hfuel : n < fuel)
    (hitem : ∀ j < n, Judged tokens (On (j + 1)) item fun a c => c.Left j ∧ V a) :
    Judged tokens (Left n) (untilSymbolIn close item fuel) fun as c =>
      c.On n ∧ ∀ a ∈ as, V a := by
  induction fuel generalizing n with
  | zero => omega
  | succ fuel ih =>
    refine judged_atSymbol.bind fun _ => .on fun k hk => .ite (fun _ => ?_) fun _ => ?_
    · exact .pure fun _ _ hon => ⟨hk ▸ hon, by simp⟩
    · refine (hitem k (by omega)).bindValue fun a ha => ?_
      refine (ih (by omega) fun j hj => hitem j (by omega)).bindValue fun as has => ?_
      exact .pure fun _ _ hon => ⟨hon.mono (by omega), forall_mem_cons.2 ⟨ha, has⟩⟩

theorem judged_untilSymbol
    (hitem : ∀ j < n, Judged tokens (On (j + 1)) item fun a c => c.Left j ∧ V a) :
    Judged tokens (Left n) (untilSymbol close item) fun as c => c.On n ∧ ∀ a ∈ as, V a := by
  refine judged_budget (untilSymbolIn close item) fun j hj => ?_
  refine (judged_untilSymbolIn (Nat.lt_succ_self j) fun i hi => hitem i (by omega)).post
    fun _ _ h => ⟨h.1.mono hj, h.2⟩

theorem judged_skipAllIn (hfuel : n < fuel) :
    Judged tokens (Left n) (skipAllIn s fuel) fun _ => Left n := by
  induction fuel generalizing n with
  | zero => omega
  | succ fuel ih =>
    refine judged_seesSymbol.bind fun b => .ite (fun hb => ?_) fun _ => ?_
    · have hon : Judged tokens (On n) (advance >>= fun _ => skipAllIn s fuel) fun _ => Left n := by
        refine .on fun k hk => .skip ?_
        exact (ih (by omega)).post fun _ _ h => h.mono (by omega)
      exact hon.pre fun _ h => h.2 hb
    · exact .pure fun _ _ h => h.1

theorem judged_skipAll : Judged tokens (Left n) (skipAll s) fun _ => Left n := by
  refine judged_budget (skipAllIn s) fun j hj => ?_
  exact (judged_skipAllIn (Nat.lt_succ_self j)).post fun _ _ h => h.mono hj

end Tokens

section Forms

variable {nested : Ends → Parser Expr}

/-- The parser of nested expressions is judged where less than `n` tokens are left, and takes one
of them. -/
def Fits (tokens : List Token) (n : Nat) (nested : Ends → Parser Expr) : Prop :=
  ∀ ends, ∀ j < n, Judged tokens (Left j) (nested ends) fun _ => On (j - 1)

theorem Fits.mono (h : Fits tokens n nested) (hmn : m ≤ n) : Fits tokens m nested :=
  fun ends j hj => h ends j (Nat.lt_of_lt_of_le hj hmn)

/-- A nested expression leaves a token under the cursor. -/
theorem Fits.on (h : Fits tokens (n + 1) nested) (ends : Ends) :
    Judged tokens (Left n) (nested ends) fun _ => On n :=
  (h ends n (Nat.lt_succ_self n)).post fun _ _ hon => hon.mono (by omega)

theorem judged_close {first : Token} {e : Expr} :
    Judged tokens (On n) (close first e) fun _ => Left n := by
  refine judged_token_on.bind fun closer => ?_
  refine judged_advance_on.ofAt.bind fun _ => ?_
  exact .pure fun _ _ h => h

theorem judged_opener {p : Token → Parser α} {Q : α → Cursor → Prop}
    (h : ∀ t, Judged tokens (Left n) (p t) Q) :
    Judged tokens (On (n + 1)) (do let opener ← token .absent; advance; p opener) Q := by
  refine judged_token_on.bind fun t => ?_
  exact judged_advance.ofAt.bind fun _ => h t

variable (hN : Fits tokens (n + 1) nested)

include hN

theorem judged_paren : Judged tokens (On (n + 1)) (paren nested) fun _ => Left n := by
  refine judged_opener fun opener => (hN.on _).bind fun first => ?_
  refine judged_sees.bind fun _ => .ite (fun _ => ?_) fun _ => ?_
  · refine (judged_advance_left.pre fun _ h => h.1.left).bind fun _ => ?_
    exact (hN.on _).bind fun second => judged_close
  · refine (judged_token_on.pre fun _ h => h.1).bind fun _ => ?_
    refine judged_advance_on.ofAt.bind fun _ => ?_
    exact .pure fun _ _ h => h

theorem judged_listTail :
    Judged tokens (On (n + 1)) (listTail nested) fun _ => On n :=
  .skip <| hN.on _

variable {fuel : Nat} {opener : Token}

theorem judged_forClauses (hm : m ≤ n) (hfuel : m < fuel)
    (e : Expr) : Judged tokens (Left m) (forClauses nested fuel e) fun _ => On m := by
  induction fuel generalizing m e with
  | zero => omega
  | succ fuel ih =>
    refine judged_atKeyword.bind fun _ => .on fun k hk => .ite (fun _ => ?_) fun _ => ?_
    · refine .skip ?_
      refine ((hN.mono (show k + 1 ≤ n + 1 by omega)).on _).bind fun bound => ?_
      refine judged_advance_on.bind fun _ => ?_
      refine ((hN.mono (show k + 1 ≤ n + 1 by omega)).on _).bind fun source => ?_
      refine (ih (by omega) (by omega) _).mono (fun _ hon => hon.left) fun _ _ hon => ?_
      exact hon.mono (by omega)
    · exact .pure fun _ _ hon => hk ▸ hon

/-- What stands behind an item is judged if the items behind a comma are. -/
theorem judged_afterItem {more : List Expr → Parser Expr}
    (hmore : ∀ items, Judged tokens (Left n) (more items) fun _ => Left n) (items : List Expr)
    (item : Expr) :
    Judged tokens (On n) (afterItem nested opener more items item) fun _ => Left n := by
  refine judged_token_on.bind fun t => ?_
  have htail : ∀ {f : Expr → Expr},
      Judged tokens (On n) (listTail nested >>= fun e => close opener (f e)) fun _ => Left n := by
    refine .on fun k hk => ?_
    refine (judged_listTail (hN.mono (show k + 1 ≤ n + 1 by omega))).bind fun e => ?_
    exact judged_close.post fun _ _ h => h.mono (by omega)
  split
  · refine judged_advance_on.ofAt.bind fun _ => hmore _
  · exact .ite (fun _ => htail.ofAt) fun _ => .refuse rfl rfl
  · exact .ite (fun _ => htail.ofAt) fun _ => .refuse rfl rfl
  · refine .ite (fun _ => ?_) fun _ => .refuse rfl rfl
    have hclauses : Judged tokens (Left n) (do forClauses nested (← get).budget item)
        fun _ => On n := by
      refine judged_budget (forClauses nested · item) fun j hj => ?_
      exact (judged_forClauses hN hj (by omega) item).post fun _ _ hon => hon.mono hj
    refine (hclauses.pre fun _ ht => ht.1).bind fun mapped => ?_
    refine judged_sees.bind fun _ => .ite (fun _ => ?_) fun _ => ?_
    · exact htail.pre fun _ h => h.1
    · exact judged_close.pre fun _ h => h.1
  · exact htail.ofAt
  · exact htail.ofAt
  · exact (hmore _).pre fun _ ht => ht.1

theorem judged_listItems (hm : m ≤ n) (hfuel : m < fuel)
    (items : List Expr) :
    Judged tokens (Left m) (listItems nested opener fuel items) fun _ => Left m := by
  induction fuel generalizing m items with
  | zero => omega
  | succ fuel ih =>
    refine judged_atSymbol.bind fun _ => .ite (fun _ => ?_) fun _ => ?_
    · exact judged_close
    · refine .on fun k hk => ?_
      have hitem := hN itemEnds (k + 1) (by omega)
      refine hitem.ofOn.bind fun item => ?_
      refine (judged_afterItem (hN.mono (show k + 1 ≤ n + 1 by omega)) (fun items => ?_) items
        item).post fun _ _ h => h.mono (by omega)
      exact ih (by omega) (by omega) items

theorem judged_list : Judged tokens (On (n + 1)) (list nested) fun _ => Left n := by
  refine judged_opener fun opener => judged_budget (listItems nested opener · []) fun j hj => ?_
  exact (judged_listItems hN hj (by omega) []).post fun _ _ h => h.mono hj

/-- What stands behind a value is judged if the arms behind the next condition are. -/
theorem judged_afterValue {more : List Expr → Parser (List Expr)}
    (hmore : ∀ operands, Judged tokens (Left n) (more operands) fun _ => On n)
    (operands : List Expr) (value : Expr) :
    Judged tokens (Left n) (afterValue nested more operands value) fun _ => On n := by
  refine judged_skipSymbol.bind fun _ => judged_atSymbol.bind fun _ =>
    .ite (fun _ => ?_) fun _ => ?_
  · exact .pure fun _ _ hon => hon
  · refine (hN.on _).ofOn.bind fun next => ?_
    exact (hmore _).ofOn

theorem judged_arms (hm : m ≤ n) (hfuel : m < fuel)
    (operands : List Expr) : Judged tokens (Left m) (arms nested fuel operands) fun _ => On m := by
  induction fuel generalizing m operands with
  | zero => omega
  | succ fuel ih =>
    refine judged_atSymbol.bind fun _ => .on fun k hk => .ite (fun _ => ?_) fun _ => ?_
    · have hk' : Fits tokens (k + 1) nested := hN.mono (by omega)
      refine .skip <| (hk'.on _).bind fun value => ?_
      refine (judged_afterValue hk' (fun operands => ?_) operands value).mono
        (fun _ hon => hon.left) fun _ _ hon => hon.mono (by omega)
      exact ih (by omega) (by omega) operands
    · exact .pure fun _ _ hon => hk ▸ hon

theorem judged_conditional : Judged tokens (On (n + 1)) (conditional nested) fun _ => Left n := by
  refine judged_opener fun opener => (hN.on _).bind fun cond => ?_
  have harms : Judged tokens (Left n) (do arms nested (← get).budget [cond]) fun _ => On n := by
    refine judged_budget (arms nested · [cond]) fun j hj => ?_
    exact (judged_arms hN hj (by omega) [cond]).post fun _ _ hon => hon.mono hj
  refine harms.ofOn.bind fun operands => ?_
  refine judged_sees.bind fun b => ?_
  split
  · exact judged_close.pre fun _ h => h.1
  · refine (judged_advance_left.pre fun _ h => h.1.left).bind fun _ => ?_
    exact judged_expectSymbol.bind fun _ => judged_close

theorem judged_container? {l : Lexeme} {form : Parser Expr}
    (h : container? nested l = some form) :
    Judged tokens (On (n + 1)) form fun _ => Left n := by
  unfold container? at h
  split at h <;> cases h
  · exact judged_paren hN
  · exact judged_list hN
  · exact judged_conditional hN

/-- The arguments of a call leave the closing parenthesis under the cursor. -/
theorem judged_callWith : Judged tokens (Left (n + 1)) (callWith nested) fun _ => On n := by
  refine judged_expectSymbol.bind fun _ => .skip ?_
  refine (judged_untilSymbol (V := fun _ => True) fun j hj => ?_).post fun _ _ h => h.1
  have harg := hN (.ofSymbols [.comma, .parenRight]) (j + 1) (by omega)
  refine (harg.mono (fun _ hon => hon.left) fun _ _ hon => hon.left).bind fun arg => ?_
  exact judged_skipSymbol.bind fun _ => .give trivial

end Forms

section Operators

variable {nested : Ends → Parser Expr}

/-- An operator that lacks operands is refused at the token under the cursor. -/
theorem judged_reduce {p : Pending} {operands : List Expr} :
    Judged tokens (On n) (reduce p operands) fun _ => On n := by
  refine .ite (fun _ => ?_) fun _ => .pure fun _ _ hon => hon
  intro c hc hon
  obtain ⟨t, ht⟩ := hon
  refine ⟨⟨t, hc.mem ht, .inl ?_⟩, rfl⟩
  rw [ht.2]
  rfl

theorem judged_reduceBefore {op : Operation} (ps : List Pending) (operands : List Expr) :
    Judged tokens (On n) (reduceBefore op ps operands) fun _ => On n := by
  induction ps generalizing operands with
  | nil => exact .pure fun _ _ hon => hon
  | cons p ps ih =>
    refine .ite (fun _ => ?_) fun _ => .pure fun _ _ hon => hon
    exact judged_reduce.bind fun operands => ih operands

/-- Calls and indices leave their closing bracket under the cursor, other operators themselves. -/
theorem judged_pushOperator (hN : Fits tokens (n + 1) nested) (op : Operation) (s : Stacks) :
    Judged tokens (On (n + 1)) (pushOperator nested op s) fun _ => On (n + 1) := by
  have hresult : ∀ {p : Pending} {operands : List Expr}, Judged tokens (On n) (do
      let operands ← reduce p operands
      return ((⟨s.operators, operands⟩ : Stacks), false)) fun _ => On (n + 1) :=
    judged_reduce.bind fun _ => .pure fun _ _ hon => hon.mono (by omega)
  unfold pushOperator
  split
  · exact (judged_callWith hN).ofOn.bind fun args => hresult
  · refine .skip <| judged_token.bind fun name => ?_
    refine (judged_expectName.pre fun _ ht => ht.1).bindValue fun callee _ => ?_
    refine judged_advance_on.bind fun _ => ?_
    exact ((judged_callWith hN).pre fun _ h => h.mono (by omega)).bind fun args => hresult
  · exact .skip <| (hN.on _).bind fun i => hresult
  · exact .pure fun _ _ hon => hon

theorem judged_step (hN : Fits tokens (n + 1) nested) (ends : Ends) (s : Stacks) (b : Bool) (t : Token) :
    Judged tokens (At (n + 1) t) (step nested ends s b t) fun _ => Left n := by
  unfold step
  split
  · refine .ite (fun _ => ?_) fun _ => .refuse rfl rfl
    exact judged_advance.ofAt.bind fun _ => .pure fun _ _ h => h
  · split
    · rename_i form hform
      have hcontainer : container? nested t.lexeme = some form := by
        split at hform
        · exact hform
        · cases hform
      refine (judged_container? hN hcontainer).ofAt.bind fun e => ?_
      exact .pure fun _ _ h => h
    · split
      · exact .refuse (by cases b <;> rfl) rfl
      · rename_i op _
        refine (judged_reduceBefore _ _).ofAt.bind fun s => ?_
        refine (judged_pushOperator hN op s).bind fun result => ?_
        exact .skip <| .pure fun _ _ h => h

variable {s : Stacks}

theorem run_finish {e : Expr} {c : Cursor} (h : Collapses s.operators s.operands [e]) :
    (finish s false t).run c = .ok e c :=
  run_bind_of_ok (run_reduceAll_eq_ok.2 ⟨rfl, h⟩)

/-- An expression ends on the token under the cursor, or it lacks an operand there. -/
theorem judged_finish {b : Bool} (hs : s.Balanced b) (t : Token) :
    Judged tokens (At n t) (finish s b t) fun _ c => b = false ∧ c.On n := by
  cases b with
  | true => exact .refuse rfl rfl
  | false =>
    -- The operators leave one operand, so that the last check is passed.
    obtain ⟨e, he⟩ := hs.collapses
    intro c hc ht
    rw [run_finish he]
    exact ⟨hc, rfl, ht.on⟩

variable (hfollows : Follows nested fun _ _ => True)

include hfollows

/-- A turn of the loop keeps the stacks balanced. -/
theorem balanced_of_step {ends : Ends} {s' : Stacks} {b b' : Bool} (hs : s.Balanced b)
    {c d : Cursor} (hhead : c.rest.head? = some t)
    (h : (step nested ends s b t).run c = .ok (s', b') d) : s'.Balanced b' := by
  obtain ⟨rest, last⟩ := c
  obtain ⟨ts, rfl⟩ := head?_eq_some_iff.1 hhead
  obtain ⟨us, -, -, -, hturn⟩ := step_reads hfollows h
  exact hturn.balanced hs

/-- The loop has a turn for each token.  It takes one unless it starts behind an operand. -/
theorem judged_loop (hN : Fits tokens n nested) (ends : Ends) {fuel : Nat} (hm : m ≤ n)
    (hfuel : m < fuel) {b : Bool} (hs : s.Balanced b) :
    Judged tokens (Left m) (loop nested ends fuel s b) fun _ => On (m - b.toNat) := by
  induction fuel generalizing m s b with
  | zero => omega
  | succ fuel ih =>
    refine judged_token.bind fun t => .ite (fun _ => ?_) fun _ => ?_
    · refine (judged_finish hs t).post fun _ _ h => ?_
      obtain ⟨rfl, hon⟩ := h
      exact hon
    · refine judged_of_imp (fun _ _ ht => ht.on.pos) fun hpos => ?_
      obtain ⟨k, rfl⟩ : ∃ k, m = k + 1 := ⟨m - 1, by omega⟩
      have hturn := (judged_step (hN.mono (by omega)) ends s b t).also (V := fun r => r.1.Balanced r.2)
        fun _ r _ _ ht h => balanced_of_step hfollows hs ht.2 h
      refine hturn.bindValue fun (s', b') hs' => ?_
      refine (ih (by omega) (by omega) hs').post fun _ _ hon => hon.mono ?_
      have hle : b.toNat ≤ 1 := Bool.toNat_le b
      omega

theorem judged_exprWith (hN : Fits tokens n nested) (hm : m ≤ n) (ends : Ends) :
    Judged tokens (Left m) (exprWith nested ends) fun _ => On (m - 1) := by
  refine judged_budget (loop nested ends · .empty true) fun j hj => ?_
  refine (judged_loop hfollows hN ends (by omega) (by omega) .empty).post fun _ _ hon => hon.mono ?_
  show j - 1 ≤ m - 1
  omega

omit hfollows

theorem follows_exprWithin (depth : Nat) : Follows (exprWithin depth) fun _ _ => True :=
  exprWithin_follows (fun _ _ _ => trivial) depth

/-- There are as many levels as tokens, and each level takes its opening bracket. -/
theorem fits_exprWithin (depth : Nat) : Fits tokens depth (exprWithin depth) := by
  induction depth with
  | zero =>
    intro ends j hj
    omega
  | succ depth ih =>
    intro ends j hj
    exact judged_exprWith (follows_exprWithin depth) ih (Nat.le_of_lt_succ hj) ends

theorem judged_expr (ends : Ends) :
    Judged tokens (Left n) (expr ends) fun e c => c.On (n - 1) ∧ e.Shaped tokens := by
  have hon : Judged tokens (Left n) (expr ends) fun _ => On (n - 1) := by
    refine judged_budget (exprWithin · ends) fun j hj => ?_
    exact (fits_exprWithin (j + 1) ends j (Nat.lt_succ_self j)).post fun _ _ hon => hon.mono (by omega)
  refine hon.also fun c e d hc _ hresult => ?_
  obtain ⟨us, t, rest, hsplit, -, -, hshaped⟩ := expr_shaped hresult
  exact hshaped (append_subset.1 (hsplit ▸ hc.rest)).1

theorem judged_call : Judged tokens (Left (n + 1)) call fun args c =>
    c.On n ∧ ∀ e ∈ args, e.Shaped tokens := by
  refine judged_expectSymbol.bind fun _ => .skip ?_
  refine judged_untilSymbol fun j hj => ?_
  refine (judged_expr _).ofOn.bindValue fun arg harg => ?_
  refine judged_skipSymbol.ofOn.bind fun _ => ?_
  exact .give harg

end Operators

end Parser

end Diagram
