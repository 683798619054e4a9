import Diagram.Element.Parser
import Diagram.Proofs.Parser.Realized

/-!
# Parsers on more tokens

A parser that succeeds and leaves a token does the same where more tokens follow: it has not seen
the end.  The bounds of loops grow with the tokens, so this is a relation between two parsers, of
which the second may have more turns.  A parser that takes the token on which it ends does the same
even where it leaves none.

Main statements: `extends_expr`, `seals_action`.
-/

namespace Diagram.Parser

-- Instances are found along whole parsers.
set_option synthInstance.maxSize 10000

variable {α β : Type}

/-- Where the first parser succeeds and leaves a token, the second does the same with more tokens
behind. -/
class Extends (m m' : Parser α) : Prop where
  run : ∀ ⦃ts last a d⦄, m.run ⟨ts, last⟩ = .ok a d → ∃ us rest, ts = us ++ rest ∧
    d = ⟨rest, last⟩ ∧
      (rest ≠ [] → ∀ more last', m'.run ⟨ts ++ more, last'⟩ = .ok a ⟨rest ++ more, last'⟩)

/-- Where the first parser succeeds it takes a token, and the second does the same with more tokens
behind. -/
class Seals (m m' : Parser α) : Prop where
  run : ∀ ⦃ts last a d⦄, m.run ⟨ts, last⟩ = .ok a d →
    ∃ us rest, us ≠ [] ∧ ts = us ++ rest ∧ d = ⟨rest, last⟩ ∧
      ∀ more last', m'.run ⟨ts ++ more, last'⟩ = .ok a ⟨rest ++ more, last'⟩

/-- A parser leaves a token where it succeeds. -/
class Stops (m : Parser α) : Prop where
  rest_ne_nil : ∀ ⦃c a d⦄, m.run c = .ok a d → d.rest ≠ []

section Logic

instance (a : α) : Extends (pure a) (pure a) where
  run ts last b d h := by
    obtain ⟨rfl, rfl⟩ := run_pure_eq_ok.1 h
    exact ⟨[], ts, rfl, rfl, fun _ _ _ => rfl⟩

variable {area : Area} {cause : Cause} {m m' n n' : Parser α} {f f' : α → Parser β} {b : Prop}

instance : Extends (failAt area cause) m where
  run _ _ _ _ h := absurd h run_failAt_ne_ok

instance extends_bind [hm : Extends m m'] [hf : ∀ a, Extends (f a) (f' a)] :
    Extends (m >>= f) (m' >>= f') where
  run ts last b d h := by
    obtain ⟨a, c, hfirst, hsecond⟩ := run_bind_eq_ok.1 h
    obtain ⟨us, mid, rfl, rfl, hm⟩ := hm.run hfirst
    obtain ⟨vs, rest, rfl, rfl, hf⟩ := (hf a).run hsecond
    refine ⟨us ++ vs, rest, by simp, rfl, fun hrest more last' => ?_⟩
    rw [run_bind_of_ok (hm (by simp [hrest]) more last')]
    exact hf hrest more last'

instance [Decidable b] [hm : Extends m m'] [hn : Extends n n'] :
    Extends (if b then m else n) (if b then m' else n') := by
  split
  · exact hm
  · exact hn

theorem budget_le_append (ts more : List Token) (last last' : Option Location) :
    Cursor.budget ⟨ts, last⟩ ≤ Cursor.budget ⟨ts ++ more, last'⟩ := by
  simp [Cursor.budget]

/-- A parser that makes at most as many turns as there are tokens. -/
theorem extends_get {f f' : Cursor → Parser α}
    (h : ∀ {c c'}, c.budget ≤ c'.budget → Extends (f c) (f' c')) :
    Extends (get >>= f) (get >>= f') where
  run ts last a d hrun := by
    obtain ⟨us, rest, hts, rfl, -⟩ := (h (Nat.le_refl _)).run hrun
    refine ⟨us, rest, hts, rfl, fun hrest more last' => ?_⟩
    obtain ⟨vs, rest', -, hd, hext⟩ := (h (budget_le_append ts more last last')).run hrun
    cases hd
    exact hext hrest more last'

instance seals_bind [hm : Extends m m'] [hf : ∀ a, Seals (f a) (f' a)] :
    Seals (m >>= f) (m' >>= f') where
  run ts last b d h := by
    obtain ⟨a, c, hfirst, hsecond⟩ := run_bind_eq_ok.1 h
    obtain ⟨us, mid, rfl, rfl, hm⟩ := hm.run hfirst
    obtain ⟨vs, rest, hvs, rfl, rfl, hf⟩ := (hf a).run hsecond
    refine ⟨us ++ vs, rest, by simp [hvs], by simp, rfl, fun more last' => ?_⟩
    rw [run_bind_of_ok (hm (by simp [hvs]) more last')]
    exact hf more last'

instance [hm : Seals m m'] (g : α → β) :
    Seals (m >>= fun a => pure (g a)) (m' >>= fun a => pure (g a)) where
  run ts last b d h := by
    obtain ⟨a, c, hfirst, hsecond⟩ := run_bind_eq_ok.1 h
    obtain ⟨us, rest, hus, rfl, rfl, hm⟩ := hm.run hfirst
    cases hsecond
    refine ⟨us, rest, hus, rfl, rfl, fun more last' => ?_⟩
    rw [run_bind_of_ok (hm more last')]
    rfl

instance : Seals (failAt area cause) m where
  run _ _ _ _ h := absurd h run_failAt_ne_ok

instance [Decidable b] [hm : Seals m m'] [hn : Seals n n'] :
    Seals (if b then m else n) (if b then m' else n') := by
  split
  · exact hm
  · exact hn

/-- A parser that takes the token on which another one ends. -/
instance [hm : Extends m m'] [hstops : Stops m] (g : α → β) :
    Seals (m >>= fun a => advance >>= fun _ => pure (g a))
      (m' >>= fun a => advance >>= fun _ => pure (g a)) where
  run ts last b d h := by
    obtain ⟨a, c, hfirst, hsecond⟩ := run_bind_eq_ok.1 h
    have hstop := hstops.rest_ne_nil hfirst
    obtain ⟨us, mid, rfl, rfl, hm⟩ := hm.run hfirst
    obtain ⟨t, rest, rfl⟩ := List.exists_cons_of_ne_nil hstop
    cases hsecond
    refine ⟨us ++ [t], rest, by simp, by simp, rfl, fun more last' => ?_⟩
    rw [run_bind_of_ok (hm (by simp) more last')]
    rfl

theorem Seals.extends (h : Seals m m') : Extends m m' where
  run ts last a d hrun := by
    obtain ⟨us, rest, -, hts, hd, hext⟩ := h.run hrun
    exact ⟨us, rest, hts, hd, fun _ => hext⟩

theorem seals_get {f f' : Cursor → Parser α}
    (h : ∀ {c c'}, c.budget ≤ c'.budget → Seals (f c) (f' c')) :
    Seals (get >>= f) (get >>= f') where
  run ts last a d hrun := by
    obtain ⟨us, rest, hus, hts, rfl, -⟩ := (h (Nat.le_refl _)).run hrun
    refine ⟨us, rest, hus, hts, rfl, fun more last' => ?_⟩
    obtain ⟨vs, rest', -, -, hd, hext⟩ := (h (budget_le_append ts more last last')).run hrun
    cases hd
    exact hext more last'

end Logic

section Tokens

instance : Extends token? token? where
  run ts last t d h := by
    cases h
    refine ⟨[], ts, rfl, rfl, fun hts more last' => ?_⟩
    obtain ⟨t, ts, rfl⟩ := List.exists_cons_of_ne_nil hts
    rfl

instance {cause : Cause} : Extends (token cause) (token cause) where
  run ts last t d h := by
    obtain ⟨rfl, us, rfl⟩ := run_token_eq_ok.1 h
    exact ⟨[], t :: us, rfl, rfl, fun _ _ _ => rfl⟩

instance : Extends advance advance where
  run ts last u d h := by
    obtain rfl := run_advance_eq_ok.1 h
    cases ts with
    | nil => exact ⟨[], [], rfl, rfl, fun hne => absurd rfl hne⟩
    | cons t ts => exact ⟨[t], ts, rfl, rfl, fun _ _ _ => rfl⟩

instance (s : Symbol) : Extends (atSymbol s) (atSymbol s) := by
  unfold atSymbol
  infer_instance

instance (k : Keyword) : Extends (atKeyword k) (atKeyword k) := by
  unfold atKeyword
  infer_instance

instance (s : Symbol) : Extends (seesSymbol s) (seesSymbol s) := by
  unfold seesSymbol
  infer_instance

instance (k : Keyword) : Extends (seesKeyword k) (seesKeyword k) := by
  unfold seesKeyword
  infer_instance

instance (s : Symbol) : Extends (skipSymbol s) (skipSymbol s) := by
  unfold skipSymbol
  infer_instance

instance (s : Symbol) : Extends (expectSymbol s) (expectSymbol s) := by
  unfold expectSymbol
  infer_instance

instance (ends : Ends) : Extends (expectOneOf ends) (expectOneOf ends) := by
  unfold expectOneOf
  infer_instance

instance : Extends expectName expectName := by
  refine @extends_bind _ _ _ _ _ _ inferInstance fun t => ?_
  split <;> infer_instance

variable {item item' : Parser α} {n n' : Nat}

theorem extends_untilSymbolIn (close : Symbol) [Extends item item'] (hle : n ≤ n') :
    Extends (untilSymbolIn close item n) (untilSymbolIn close item' n') := by
  induction n generalizing n' with
  | zero => exact inferInstanceAs (Extends (failAt _ _) _)
  | succ n ih =>
    obtain _ | n' := n'
    · omega
    have hrest := ih (Nat.le_of_succ_le_succ hle)
    unfold untilSymbolIn
    infer_instance

instance (close : Symbol) [Extends item item'] :
    Extends (untilSymbol close item) (untilSymbol close item') :=
  extends_get (extends_untilSymbolIn close)

theorem extends_skipAllIn (s : Symbol) (hle : n ≤ n') :
    Extends (skipAllIn s n) (skipAllIn s n') := by
  induction n generalizing n' with
  | zero => exact inferInstanceAs (Extends (failAt _ _) _)
  | succ n ih =>
    obtain _ | n' := n'
    · omega
    have hrest := ih (Nat.le_of_succ_le_succ hle)
    unfold skipAllIn
    infer_instance

instance (s : Symbol) : Extends (skipAll s) (skipAll s) :=
  extends_get (extends_skipAllIn s)

instance stops_bind {m : Parser α} {f : α → Parser β} [hf : ∀ a, Stops (f a)] :
    Stops (m >>= f) where
  rest_ne_nil c b d h := by
    obtain ⟨a, c', -, hsecond⟩ := run_bind_eq_ok.1 h
    exact (hf a).rest_ne_nil hsecond

instance (close : Symbol) (item : Parser α) : Stops (untilSymbol close item) := by
  have hloop : ∀ n, Stops (untilSymbolIn close item n) := by
    intro n
    constructor
    induction n with
    | zero => exact fun _ _ _ h => absurd h run_failAt_ne_ok
    | succ n ih =>
      intro c as d h
      obtain ⟨b, c', hat, h⟩ := run_bind_eq_ok.1 h
      obtain ⟨rfl, t, ts, hts, rfl⟩ := run_atSymbol_eq_ok.1 hat
      split at h
      · cases h
        simp [hts]
      · obtain ⟨a, c', -, h⟩ := run_bind_eq_ok.1 h
        obtain ⟨as', c', hrest, h⟩ := run_bind_eq_ok.1 h
        cases h
        exact ih hrest
  exact stops_bind

end Tokens

section Expressions

/-- What is read with some depth for nested expressions is read with any larger one: it is what a
reading says. -/
theorem exprWithin_follows_reads {n n' : Nat} (hle : n ≤ n') :
    Follows (exprWithin n) (Reads (exprWithin n')) := by
  induction n generalizing n' with
  | zero =>
    intro ends ts last d e h
    exact absurd h run_failAt_ne_ok
  | succ n ih =>
    obtain _ | n' := n'
    · omega
    intro ends ts last d e h
    obtain ⟨us, t, rest, hts, hd, ht, hread⟩ := exprWith_follows (ih (Nat.le_of_succ_le_succ hle)) h
    exact ⟨us, t, rest, hts, hd, ht, reads_exprWith hread⟩

variable {ends : Ends}

/-- Expressions are read alike where more tokens follow. -/
theorem extends_expr (ends : Ends) (hends : ends.areOutside) : Extends (expr ends) (expr ends) := by
  refine extends_get fun hle => ⟨fun ts last e d h => ?_⟩
  obtain ⟨us, t, rest, rfl, rfl, ht, hread⟩ := exprWithin_follows_reads hle h
  refine ⟨us, t :: rest, rfl, rfl, fun _ more last' => ?_⟩
  rw [List.append_assoc]
  exact hread.run hends ht _ last'

instance : Extends (expr (.ofSymbols [.colon])) (expr (.ofSymbols [.colon])) :=
  extends_expr _ rfl

instance : Stops (expr ends) where
  rest_ne_nil c e d h := by
    unfold expr at h
    rw [run_get_bind] at h
    obtain ⟨us, t, rest, -, rfl, -⟩ := exprWithin_follows_reads (Nat.le_refl _) h
    simp

instance : Extends call call := by
  have harg := extends_expr (.ofSymbols [.comma, .parenRight]) rfl
  unfold call callWith
  infer_instance

end Expressions

instance (ends : Ends) : Extends (ty ends) (ty ends) := by
  unfold ty
  simp only [map_eq_pure_bind]
  infer_instance

section Actions

instance (e : Expr) : Extends (actionOf e) (actionOf e) := by
  unfold actionOf
  split <;> infer_instance

variable {nested nested' : Parser Action} [Extends nested nested'] {n n' : Nat}

instance : Extends (branch nested) (branch nested') := by
  unfold branch
  infer_instance

theorem extends_branches (hle : n ≤ n') (k : Keyword) :
    Extends (branches nested n k) (branches nested' n' k) := by
  induction n generalizing n' k with
  | zero => exact inferInstanceAs (Extends (failAt _ _) _)
  | succ n ih =>
    obtain _ | n' := n'
    · omega
    have hrest := ih (Nat.le_of_succ_le_succ hle) .elifCond
    unfold branches
    infer_instance

instance : Extends (ifChain nested) (ifChain nested') := by
  refine extends_get fun hle => ?_
  have harms := @extends_branches nested nested' _ _ _ hle .ifCond
  infer_instance

instance : Extends (blockItem nested) (blockItem nested') := by
  unfold blockItem
  infer_instance

/-- A block takes its closing brace. -/
instance : Seals (actionWith nested false) (actionWith nested' false) := by
  simp only [actionWith, Bool.false_eq_true, if_false]
  infer_instance

theorem extends_actionWith (b : Bool) : Extends (actionWith nested b) (actionWith nested' b) := by
  have hinline := extends_expr actionEnds rfl
  unfold actionWith inlineAction
  infer_instance

omit [Extends nested nested'] in
theorem extends_actionWithin (hle : n ≤ n') (b : Bool) :
    Extends (actionWithin n b) (actionWithin n' b) := by
  induction n generalizing n' b with
  | zero => exact inferInstanceAs (Extends (failAt _ _) _)
  | succ n ih =>
    obtain _ | n' := n'
    · omega
    have hnested := ih (Nat.le_of_succ_le_succ hle) true
    exact extends_actionWith b

/-- A block is read alike whatever follows. -/
instance seals_action : Seals (action false) (action false) := by
  refine seals_get fun {c c'} hle => ?_
  cases hc : c.budget with
  | zero => exact inferInstanceAs (Seals (failAt _ _) _)
  | succ n =>
    obtain ⟨n', hc'⟩ : ∃ k, c'.budget = k + 1 := Nat.exists_eq_succ_of_ne_zero (by omega)
    rw [hc']
    have hnested := extends_actionWithin (show n ≤ n' by omega) true
    exact inferInstanceAs (Seals (actionWith _ false) (actionWith _ false))

instance : Extends (action false) (action false) := seals_action.extends

end Actions

section Elements

instance (name : String) (low high : Nat) :
    Extends (attributeArgs name low high) (attributeArgs name low high) := by
  unfold attributeArgs
  infer_instance

instance (e : Expr) : Extends (constantString e) (constantString e) := by
  unfold constantString
  split <;> infer_instance

instance (args : List Expr) (i : Nat) (options : List α) (text : α → String) (default : α) :
    Extends (choiceOr args i options text default) (choiceOr args i options text default) := by
  unfold choiceOr
  split
  · refine @extends_bind _ _ _ _ _ _ inferInstance fun _ => ?_
    split <;> infer_instance
  · infer_instance

instance (args : List Expr) : Extends (firstText args) (firstText args) := by
  unfold firstText
  split <;> infer_instance

instance (e : Element) (t : Token) (name : String) :
    Extends (readAttribute e t name) (readAttribute e t name) := by
  unfold readAttribute pointAttr strokeAttr fillAttr labelAttr dragAttr clickAttr descriptionAttr
  split <;> infer_instance

theorem extends_attributes {n n' : Nat} (hle : n ≤ n') (e : Element) :
    Extends (attributes n e) (attributes n' e) := by
  induction n generalizing n' e with
  | zero => exact inferInstanceAs (Extends (failAt _ _) _)
  | succ n ih =>
    obtain _ | n' := n'
    · omega
    have hrest := fun e => ih (Nat.le_of_succ_le_succ hle) e
    unfold attributes
    infer_instance

/-- Elements are read alike where more tokens follow. -/
instance : Extends element element := by
  have hattributes := fun e => extends_get fun hle => extends_attributes hle e
  have hcolor := extends_expr (.ofSymbols [.comma, .semicolon]) rfl
  unfold element
  infer_instance

end Elements

end Diagram.Parser
