import Diagram.Proofs.Parser.Precedence
import Diagram.Proofs.Parser.Realized

/-!
# What is printed is read back

The words of a `Printing` have a reading that gives the printed expression, places in the
source aside.  The invariant on the stacks is `Holds`: behind the words of an operand they
hold it whole, or as its outermost operators with their left operands and, on top, what is
rightmost in it.

Main statement: `expr_run_of_printing`.
-/

namespace Diagram

open List Expr Operation Token

namespace Expr

theorem unplacedOf_eq_map (es : List Expr) : unplacedOf es = es.map unplaced := by
  induction es with
  | nil => rfl
  | cons e es ih => rw [unplacedOf, ih, map_cons]

@[simp] theorem unplaced_apply (op : Operation) (es : List Expr) :
    (apply op es).unplaced = operator ⟨.unknown, .nowhere⟩ op (es.map unplaced) := by
  rw [apply, unplaced, unplacedOf_eq_map]

@[simp] theorem unplaced_operator (info : Info) (op : Operation) (es : List Expr) :
    (operator info op es).unplaced = operator ⟨info.ty, .nowhere⟩ op (es.map unplaced) := by
  rw [unplaced, unplacedOf_eq_map]

end Expr

namespace Parser

@[simp] theorem unplaced_enclosed (opener closer : Token) (e : Expr) :
    (enclosed opener closer e).unplaced = e.unplaced := by
  cases e <;> rfl

/-- Tokens whose words have a certain one in the middle. -/
theorem exists_split {ts : List Token} {ls rest : List Lexeme} {w : Lexeme}
    (h : ts.map lexeme = ls ++ w :: rest) :
    ∃ us t vs, ts = us ++ t :: vs ∧ us.map lexeme = ls ∧ t.lexeme = w ∧ vs.map lexeme = rest := by
  obtain ⟨us, vs, rfl, hus, hvs⟩ := map_eq_append_iff.1 h
  obtain ⟨t, vs, rfl, ht, hvs⟩ := map_eq_cons_iff.1 hvs
  exact ⟨us, t, vs, rfl, hus, ht, hvs⟩

/-- Tokens whose words stand between two certain ones. -/
theorem exists_enclosed {ts : List Token} {ls : List Lexeme} {w w' : Lexeme}
    (h : ts.map lexeme = w :: ls ++ [w']) :
    ∃ opener us closer, ts = opener :: us ++ [closer] ∧ opener.lexeme = w ∧
      us.map lexeme = ls ∧ closer.lexeme = w' := by
  obtain ⟨us, closer, vs, rfl, hus, hclose, hvs⟩ := exists_split h
  obtain ⟨opener, us, rfl, hopen, hus⟩ := map_eq_cons_iff.1 hus
  obtain rfl := map_eq_nil_iff.1 hvs
  exact ⟨opener, us, closer, rfl, hopen, hus, hclose⟩

section Sequences

variable {N : List Token → Expr → Prop} {n : Nat} {ts : List Token} {ls : List Lexeme}
  {e : Expr} {es : List Expr}

/-- A relation holds of the tokens of every printing that is shorter than a bound. -/
def Nests (N : List Token → Expr → Prop) (n : Nat) : Prop :=
  ∀ {ts : List Token} {e : Expr} {o : Option Operation}, ts.length < n →
    Printing e o (ts.map lexeme) → ∃ e', N ts e' ∧ e'.unplaced = e.unplaced

theorem args_of_commas (hN : Nests N n) (h : Commas Printing es ls)
    (hts : ts.map lexeme = ls) (hlen : ts.length < n) :
    ∃ es', es'.map unplaced = es.map unplaced ∧ ArgsReading N ts es' ∧
      ∀ comma : Token, comma.lexeme = .symbol .comma → ArgsReading N (ts ++ [comma]) es' := by
  induction h generalizing ts with
  | one he =>
    subst hts
    obtain ⟨e', hread, heq⟩ := hN hlen he
    exact ⟨[e'], by simp [heq], .last hread, fun comma hcomma => .cons hread hcomma .nil⟩
  | cons he hes ih =>
    obtain ⟨us, comma, vs, rfl, rfl, hcomma, hvs⟩ := exists_split hts
    simp only [length_append, length_cons] at hlen
    obtain ⟨e', hread, heq⟩ := hN (by omega) he
    obtain ⟨es', hes', hargs, htrailing⟩ := ih hvs (by omega)
    refine ⟨e' :: es', by simp [heq, hes'], .cons hread hcomma hargs, fun comma' hcomma' => ?_⟩
    rw [append_assoc]
    exact .cons hread hcomma (htrailing comma' hcomma')

theorem args_of_items (hN : Nests N n) (h : Items Printing es ls)
    (hts : ts.map lexeme = ls) (hlen : ts.length < n) :
    ∃ es', es'.map unplaced = es.map unplaced ∧ ArgsReading N ts es' := by
  cases h with
  | none =>
    obtain rfl := map_eq_nil_iff.1 hts
    exact ⟨[], rfl, .nil⟩
  | plain hes =>
    obtain ⟨es', heq, hargs, -⟩ := args_of_commas hN hes hts hlen
    exact ⟨es', heq, hargs⟩
  | trailing hes =>
    obtain ⟨us, comma, vs, rfl, hus, hcomma, hvs⟩ := exists_split hts
    obtain rfl := map_eq_nil_iff.1 hvs
    simp only [length_append, length_cons] at hlen
    obtain ⟨es', heq, -, htrailing⟩ := args_of_commas hN hes hus (by omega)
    exact ⟨es', heq, htrailing comma hcomma⟩

/-- All items but the last are read with the commas behind them; how the list goes on behind the
last is open. -/
theorem list_of_commas (hN : Nests N n) (h : Commas Printing es ls)
    (hts : ts.map lexeme = ls) (hlen : ts.length < n) :
    ∃ us vs init last, ts = us ++ vs ∧ N vs last ∧
      (init ++ [last]).map unplaced = es.map unplaced ∧
      ∀ (opener : Token) (items : List Expr) (ws : List Token) (x : Expr),
        ListReading N opener (items ++ init) (vs ++ ws) x →
          ListReading N opener items (ts ++ ws) x := by
  induction h generalizing ts with
  | one he =>
    subst hts
    obtain ⟨e', hread, heq⟩ := hN hlen he
    refine ⟨[], ts, [], e', rfl, hread, by simp [heq], fun opener items ws x hrest => ?_⟩
    simpa using hrest
  | cons he hes ih =>
    obtain ⟨us, comma, vs, rfl, rfl, hcomma, hvs⟩ := exists_split hts
    simp only [length_append, length_cons] at hlen
    obtain ⟨e', hread, heq⟩ := hN (by omega) he
    obtain ⟨us', vs', init, last, rfl, hlast, hes', hlist⟩ := ih hvs (by omega)
    refine ⟨us ++ comma :: us', vs', e' :: init, last, by simp, hlast, ?_, ?_⟩
    · rw [cons_append, map_cons, heq, hes', map_cons]
    · intro opener items ws x hrest
      rw [append_assoc]
      refine .next hread hcomma (hlist opener (items ++ [e']) ws x ?_)
      simpa using hrest

variable {closer : Token} {op : Operation} {w : Lexeme} {us : List Token} {comma : List Lexeme}

theorem list_of_items (hN : Nests N n) (h : Items Printing es ls) (hts : ts.map lexeme = ls)
    (hlen : ts.length < n) (opener : Token) (hclose : closer.lexeme = .symbol .squareRight) :
    ∃ es', es'.map unplaced = es.map unplaced ∧
      ListReading N opener [] (ts ++ [closer])
        (enclosed opener closer (apply .listLiteral es')) := by
  cases h with
  | none =>
    obtain rfl := map_eq_nil_iff.1 hts
    exact ⟨[], rfl, .close hclose⟩
  | plain hes =>
    obtain ⟨us, vs, init, last, rfl, hlast, heq, hlist⟩ := list_of_commas hN hes hts hlen
    exact ⟨init ++ [last], heq, hlist opener [] [closer] _ (.last hlast hclose)⟩
  | trailing hes =>
    obtain ⟨us, comma, vs, rfl, hus, hcomma, hvs⟩ := exists_split hts
    obtain rfl := map_eq_nil_iff.1 hvs
    simp only [length_append, length_cons] at hlen
    obtain ⟨us', vs, init, last, rfl, hlast, heq, hlist⟩ := list_of_commas hN hes hus (by omega)
    refine ⟨init ++ [last], heq, ?_⟩
    rw [append_assoc]
    exact hlist opener [] _ _ (.next hlast hcomma (.close hclose))

theorem range_of_rangeWord? (h : op.rangeWord? = some w) :
    ∃ s, ((s = .exclusiveRange ∧ op = .exclusiveRange) ∨
      (s = .inclusiveRange ∧ op = .inclusiveRange)) ∧ w = .symbol s := by
  cases op <;> simp [rangeWord?] at h <;> subst h <;> simp

theorem range_of_commas (hN : Nests N n) (h : Commas Printing es ls)
    (hts : ts.map lexeme = ls) (hlen : ts.length < n) (hw : op.rangeWord? = some w)
    {dots : Token} (hdots : dots.lexeme = w) (he : N us e) (opener : Token)
    (hclose : closer.lexeme = .symbol .squareRight) :
    ∃ es', es'.map unplaced = es.map unplaced ∧
      ListReading N opener [] (ts ++ dots :: us ++ [closer])
        (enclosed opener closer (apply op (es' ++ [e]))) := by
  obtain ⟨us', vs, init, last, rfl, hlast, heq, hlist⟩ := list_of_commas hN h hts hlen
  obtain ⟨s, hop, rfl⟩ := range_of_rangeWord? hw
  refine ⟨init ++ [last], heq, ?_⟩
  rw [append_assoc]
  refine hlist opener [] _ _ ?_
  simpa using ListReading.range hop hlast hdots he hclose

theorem ClausesReading.snoc {e' bound source : Expr} {vs : List Token} {forEach inList : Token}
    (h : ClausesReading N e ts e') (hfor : forEach.lexeme = .keyword .forEach) (hbound : N us bound)
    (hin : inList.lexeme = .keyword .inList) (hsource : N vs source) :
    ClausesReading N e (ts ++ forEach :: us ++ inList :: vs)
      (apply .listMap [e', bound, source]) := by
  induction h with
  | done => simpa using ClausesReading.next hfor hbound hin hsource .done
  | next hfor' hbound' hin' hsource' _ ih =>
    simpa using ClausesReading.next hfor' hbound' hin' hsource' ih

theorem clauses_of_clauses (hN : Nests N n) (h : Clauses Printing e ls)
    (hts : ts.map lexeme = ls) (hlen : ts.length < n) :
    ∃ us forEach vs item e', ts = us ++ forEach :: vs ∧ N us item ∧
      forEach.lexeme = .keyword .forEach ∧ ClausesReading N item (forEach :: vs) e' ∧
      e'.unplaced = e.unplaced := by
  induction h generalizing ts with
  | first he hbound hsource =>
    obtain ⟨us, inList, vs, rfl, hus, hin, rfl⟩ := exists_split hts
    obtain ⟨us, forEach, ws, rfl, rfl, hfor, rfl⟩ := exists_split hus
    simp only [length_append, length_cons] at hlen
    obtain ⟨item, hitem, heq⟩ := hN (by omega) he
    obtain ⟨bound, hbound, heq₁⟩ := hN (by omega) hbound
    obtain ⟨source, hsource, heq₂⟩ := hN (by omega) hsource
    refine ⟨us, forEach, ws ++ inList :: vs, item, apply .listMap [item, bound, source],
      by simp, hitem, hfor, ?_, ?_⟩
    · simpa using ClausesReading.next hfor hbound hin hsource .done
    · simp [heq, heq₁, heq₂]
  | next _ hbound hsource ih =>
    obtain ⟨us, inList, vs, rfl, hus, hin, rfl⟩ := exists_split hts
    obtain ⟨us, forEach, ws, rfl, hbody, hfor, rfl⟩ := exists_split hus
    simp only [length_append, length_cons] at hlen
    obtain ⟨us, forEach', ws', item, e', rfl, hitem, hfor', hclauses, heq⟩ := ih hbody (by omega)
    obtain ⟨bound, hbound, heq₁⟩ := hN (by omega) hbound
    obtain ⟨source, hsource, heq₂⟩ := hN (by omega) hsource
    refine ⟨us, forEach', ws' ++ forEach :: ws ++ inList :: vs, item,
      apply .listMap [e', bound, source], by simp, hitem, hfor', ?_, ?_⟩
    · simpa using hclauses.snoc hfor hbound hin hsource
    · simp [heq, heq₁, heq₂]

/-- What may stand behind the last value of a conditional, with the default that it holds. -/
inductive ArmsEnd (N : List Token → Expr → Prop) : List Token → List Expr → Prop
  | plain : ArmsEnd N [] []
  | comma {comma : Token} (hcomma : comma.lexeme = .symbol .comma) : ArmsEnd N [comma] []
  | default {ts comma other} (hcomma : comma.lexeme = .symbol .comma) (hother : N ts other) :
      ArmsEnd N (comma :: ts) [other]
  | defaultComma {ts comma comma' other} (hcomma : comma.lexeme = .symbol .comma)
      (hother : N ts other) (hcomma' : comma'.lexeme = .symbol .comma) :
      ArmsEnd N (comma :: ts ++ [comma']) [other]

theorem ArmsEnd.reading {extra : List Expr} {colon : Token} {value : Expr} (h : ArmsEnd N us extra)
    (hcolon : colon.lexeme = .symbol .colon) (hvalue : N ts value) (operands : List Expr) :
    ArmsReading N operands (colon :: ts ++ us) (operands ++ value :: extra) := by
  cases h with
  | plain => simpa using ArmsReading.value hcolon hvalue
  | comma hcomma => exact .valueComma hcolon hvalue hcomma
  | default hcomma hother => exact .default hcolon hvalue hcomma hother
  | defaultComma hcomma hother hcomma' =>
    simpa using ArmsReading.defaultComma hcolon hvalue hcomma hother hcomma'

theorem arms_of_arms (hN : Nests N n) (h : Arms Printing es ls)
    (hts : ts.map lexeme = ls) (hlen : ts.length < n) :
    ∃ us vs cond es', ts = us ++ vs ∧ N us cond ∧
      (cond :: es').map unplaced = es.map unplaced ∧
      ∀ (operands extra : List Expr) (ws : List Token), ArmsEnd N ws extra →
        ArmsReading N (operands ++ [cond]) (vs ++ ws) (operands ++ cond :: es' ++ extra) := by
  induction h generalizing ts with
  | one hcond hvalue =>
    obtain ⟨us, colon, vs, rfl, rfl, hcolon, rfl⟩ := exists_split hts
    simp only [length_append, length_cons] at hlen
    obtain ⟨cond, hcond, heq⟩ := hN (by omega) hcond
    obtain ⟨value, hvalue, heq₁⟩ := hN (by omega) hvalue
    refine ⟨us, colon :: vs, cond, [value], rfl, hcond, by simp [heq, heq₁], ?_⟩
    intro operands extra ws hend
    simpa using hend.reading hcolon hvalue (operands ++ [cond])
  | cons hcond hvalue _ ih =>
    obtain ⟨us, comma, vs, rfl, hus, hcomma, hvs⟩ := exists_split hts
    obtain ⟨us, colon, ws, rfl, rfl, hcolon, rfl⟩ := exists_split hus
    simp only [length_append, length_cons] at hlen
    obtain ⟨cond, hcond, heq⟩ := hN (by omega) hcond
    obtain ⟨value, hvalue, heq₁⟩ := hN (by omega) hvalue
    obtain ⟨us', vs', cond', es', rfl, hcond', hes', hrest⟩ := ih hvs (by omega)
    refine ⟨us, colon :: ws ++ comma :: us' ++ vs', cond, value :: cond' :: es', by simp, hcond,
      ?_, ?_⟩
    · rw [map_cons, map_cons, heq, heq₁, hes', map_cons, map_cons]
    · intro operands extra xs hend
      have hnext := hrest (operands ++ [cond, value]) extra xs hend
      simpa using ArmsReading.next hcolon hvalue hcomma hcond' (by simpa using hnext)

theorem armsEnd_of_optionalComma (h : OptionalComma comma) (hts : ts.map lexeme = comma) :
    ArmsEnd N ts [] := by
  rcases h with rfl | rfl
  · obtain rfl := map_eq_nil_iff.1 hts
    exact .plain
  · obtain ⟨t, us, rfl, ht, hus⟩ := map_eq_cons_iff.1 hts
    obtain rfl := map_eq_nil_iff.1 hus
    exact .comma ht

theorem armsEnd_of_default {other : Expr} {comma : Token} {comma' : List Lexeme}
    (h : OptionalComma comma') (hother : N ts other) (hcomma : comma.lexeme = .symbol .comma)
    (hus : us.map lexeme = comma') : ArmsEnd N (comma :: ts ++ us) [other] := by
  rcases h with rfl | rfl
  · obtain rfl := map_eq_nil_iff.1 hus
    simpa using ArmsEnd.default hcomma hother
  · obtain ⟨t, us, rfl, ht, hus⟩ := map_eq_cons_iff.1 hus
    obtain rfl := map_eq_nil_iff.1 hus
    exact .defaultComma hcomma hother ht

theorem conditional_of_branches (hN : Nests N n) (h : Branches Printing es ls)
    (hcomma : OptionalComma comma) (hts : ts.map lexeme = ls ++ comma) (hlen : ts.length < n) :
    ∃ us vs cond operands, ts = us ++ vs ∧ N us cond ∧ ArmsReading N [cond] vs operands ∧
      operands.map unplaced = es.map unplaced := by
  obtain ⟨us, ws, rfl, hus, hws⟩ := map_eq_append_iff.1 hts
  simp only [length_append] at hlen
  cases h with
  | plain hes =>
    obtain ⟨us, vs, cond, es', rfl, hcond, heq, harms⟩ := arms_of_arms hN hes hus (by omega)
    refine ⟨us, vs ++ ws, cond, cond :: es', by simp, hcond, ?_, heq⟩
    simpa using harms [] [] ws (armsEnd_of_optionalComma hcomma hws)
  | default hes he =>
    obtain ⟨us, comma', xs, rfl, harms, hcomma', rfl⟩ := exists_split hus
    simp only [length_append, length_cons] at hlen
    obtain ⟨other, hother, heqo⟩ := hN (by omega) he
    obtain ⟨us, vs, cond, es', rfl, hcond, heq, hread⟩ := arms_of_arms hN hes harms (by omega)
    refine ⟨us, vs ++ comma' :: xs ++ ws, cond, cond :: es' ++ [other], by simp, hcond, ?_, ?_⟩
    · simpa using hread [] [other] _ (armsEnd_of_default hcomma hother hcomma' hws)
    · rw [map_append, map_append, heq, map_singleton, map_singleton, heqo]

end Sequences

section Operators

variable {N : List Token → Expr → Prop} {s s' s'' : Stacks} {e : Expr} {o : Option Operation}
  {op : Operation}

/-- An operand whose outermost operation is `o` may start on top of the waiting operators. -/
def Yields (ps : List Pending) (o : Option Operation) : Prop :=
  ∀ p ∈ ps.head?, p.op.isOpen = true ∧ p.op.admits .right o = true

/-- From `s`, the stacks came to hold an operand: whole, or taken apart into its outermost
operators, which wait with their left operands. -/
inductive Holds : Stacks → Expr → Option Operation → Stacks → Prop
  | whole {s : Stacks} {e : Expr} {o : Option Operation} : Holds s e o (s.push e)
  | unary {s s' : Stacks} {op : Operation} {e : Expr} {o : Option Operation}
      (hopen : op.isOpen = true) (hadmits : op.admits .right o = true)
      (hrest : Holds ⟨⟨op, 1⟩ :: s.operators, s.operands⟩ e o s') :
      Holds s (apply op [e]) (some op) s'
  | binary {s s' : Stacks} {op : Operation} {e₁ e₂ : Expr} {o : Option Operation}
      (hopen : op.isOpen = true) (hadmits : op.admits .right o = true)
      (hrest : Holds ⟨⟨op, 2⟩ :: s.operators, e₁ :: s.operands⟩ e₂ o s') :
      Holds s (apply op [e₁, e₂]) (some op) s'

theorem Yields.settles (h : Yields s.operators (some op)) (operands : List Expr) :
    Settles op s.operators operands ⟨s.operators, operands⟩ := by
  obtain ⟨ps, os⟩ := s
  cases ps with
  | nil => exact .empty
  | cons p ps => exact .stop (admits_right_iff.1 (h p rfl).2)

theorem Yields.left (h : Yields s.operators (some op))
    (hop : op.isOpen ∨ op.precedence = .suffix) (hleft : op.admits .left o) :
    Yields s.operators o := by
  intro p hp
  obtain ⟨hopen, hright⟩ := h p hp
  exact ⟨hopen, admits_right_of_admits_left hopen hop hright hleft⟩

theorem Yields.cons {ps : List Pending} {p : Pending} (hopen : p.op.isOpen)
    (hright : p.op.admits .right o) : Yields (p :: ps) o := by
  intro q hq
  obtain rfl : p = q := by simpa using hq
  exact ⟨hopen, hright⟩

theorem Holds.settles (h : Holds s e o s') (hleft : op.admits .left o)
    (hrest : Settles op s.operators (e :: s.operands) s'') :
    Settles op s'.operators s'.operands s'' := by
  induction h with
  | whole => exact hrest
  | unary hopen hadmits _ ih | binary hopen hadmits _ ih =>
    have hprecedes := (admits_left_iff.1 hleft).resolve_right (level_of_isOpen hopen).1
    exact ih (admits_left_of_admits_right hadmits hprecedes) (.take hprecedes (by simp) hrest)

theorem Holds.collapses (h : Holds s e o s') {result : List Expr}
    (hrest : Collapses s.operators (e :: s.operands) result) :
    Collapses s'.operators s'.operands result := by
  induction h with
  | whole => exact hrest
  | unary _ _ _ ih | binary _ _ _ ih => exact ih (.take (by simp) hrest)

/-- Wherever an operand with the outermost operation `o` may start, the tokens bring the stacks to
hold it. -/
def Carries (N : List Token → Expr → Prop) (ts : List Token) (e : Expr) (o : Option Operation) :
    Prop :=
  ∀ s : Stacks, Yields s.operators o → ∃ e' s', e'.unplaced = e.unplaced ∧ Holds s e' o s' ∧
    ∀ us x, Reading N s' false us x → Reading N s true (ts ++ us) x

variable {ts us : List Token} {t opener closer : Token} {e' : Expr} {l : Lexeme} {area : Area}
  {args args' : List Expr}

theorem Carries.reading (h : Carries N ts e o) :
    ∃ e', Reading N .empty true ts e' ∧ e'.unplaced = e.unplaced := by
  obtain ⟨e', s', heq, hholds, hread⟩ := h .empty (by simp [Yields, Stacks.empty])
  have hfinish := hread [] e' (.finish (hholds.collapses .done))
  exact ⟨e', by simpa using hfinish, heq⟩

theorem carries_operand (h : operand? t = some e') (heq : e'.unplaced = e.unplaced) :
    Carries N [t] e none :=
  fun s _ => ⟨e', s.push e', heq, .whole, fun _ _ hrest => .turn (.operand h) hrest⟩

theorem carries_form (h : FormReading N ts e') (heq : e'.unplaced = e.unplaced) :
    Carries N ts e none :=
  fun s _ => ⟨e', s.push e', heq, .whole, fun _ _ hrest => .turn (.form h) hrest⟩

theorem ofLexeme?_of_unaryWord? (h : op.unaryWord? = some l) :
    ofLexeme? l true = some op ∧ waits op ∧ operandCount op = 1 := by
  cases op <;> simp [unaryWord?] at h <;> subst h <;> exact ⟨rfl, rfl, rfl⟩

theorem ofLexeme?_of_mem_binaryWords (h : l ∈ op.binaryWords) :
    ofLexeme? l false = some op ∧ waits op ∧ operandCount op = 2 := by
  cases op <;> simp [binaryWords] at h <;>
    first
      | (exact ⟨rfl, rfl, rfl⟩)
      | (rcases h with rfl | rfl <;> exact ⟨rfl, rfl, rfl⟩)

theorem carries_unary (hw : op.unaryWord? = some t.lexeme) (he : Carries N ts e o)
    (hadmits : op.admits .right o) :
    Carries N (t :: ts) (.operator ⟨.unknown, area⟩ op [e]) (some op) := by
  intro s hs
  obtain ⟨hop, hwaits, hcount⟩ := ofLexeme?_of_unaryWord? hw
  have hopen := isOpen_of_unaryWord? hw
  obtain ⟨e', s', heq, hholds, hread⟩ :=
    he ⟨⟨op, 1⟩ :: s.operators, s.operands⟩ (.cons hopen hadmits)
  refine ⟨apply op [e'], s', by simp [heq], .unary hopen hadmits hholds, fun us x hrest => ?_⟩
  have hturn : Turn N s true [t] _ true := .operator hop hwaits (hs.settles s.operands)
  rw [hcount] at hturn
  change Reading N s true ([t] ++ (ts ++ us)) x
  exact .turn hturn (hread us x hrest)

theorem carries_binary {e₁ e₂ : Expr} {o₁ o₂ : Option Operation} (hw : t.lexeme ∈ op.binaryWords)
    (he₁ : Carries N ts e₁ o₁) (hleft : op.admits .left o₁) (he₂ : Carries N us e₂ o₂)
    (hright : op.admits .right o₂) :
    Carries N (ts ++ t :: us) (.operator ⟨.unknown, area⟩ op [e₁, e₂]) (some op) := by
  intro s hs
  obtain ⟨hop, hwaits, hcount⟩ := ofLexeme?_of_mem_binaryWords hw
  have hopen := isOpen_of_mem_binaryWords hw
  obtain ⟨e₁', s₁, heq₁, hholds₁, hread₁⟩ := he₁ s (hs.left (.inl hopen) hleft)
  obtain ⟨e₂', s₂, heq₂, hholds₂, hread₂⟩ :=
    he₂ ⟨⟨op, 2⟩ :: s.operators, e₁' :: s.operands⟩ (.cons hopen hright)
  refine ⟨apply op [e₁', e₂'], s₂, by simp [heq₁, heq₂], .binary hopen hright hholds₂,
    fun vs x hrest => ?_⟩
  have hturn : Turn N s₁ false [t] _ true :=
    .operator hop hwaits (hholds₁.settles hleft (hs.settles (e₁' :: s.operands)))
  rw [hcount] at hturn
  rw [append_assoc]
  refine hread₁ _ x ?_
  change Reading N s₁ false ([t] ++ (us ++ vs)) x
  exact .turn hturn (hread₂ vs x hrest)

theorem carries_call {f : Expr} (hf : Carries N ts f o)
    (hleft : Operation.call.admits .left o) (hargs : ArgsReading N us args')
    (heq : args'.map unplaced = args.map unplaced)
    (hopen : opener.lexeme = .symbol .parenLeft) (hclose : closer.lexeme = .symbol .parenRight) :
    Carries N (ts ++ opener :: us ++ [closer]) (.operator ⟨.unknown, area⟩ .call (f :: args))
      (some .call) := by
  intro s hs
  obtain ⟨f', s₁, heqf, hholds, hread⟩ := hf s (hs.left (.inr rfl) hleft)
  refine ⟨apply .call (f' :: args'), _, by simp [heqf, heq], .whole, fun vs x hrest => ?_⟩
  have hturn := Turn.call hopen (hholds.settles hleft (hs.settles (f' :: s.operands))) hargs hclose
  rw [append_assoc, append_assoc]
  exact hread _ x (by simpa using Reading.turn hturn hrest)

theorem carries_actionCall {action name : Token} {area₁ : Area} {m : String}
    (hargs : ArgsReading N us args') (heq : args'.map unplaced = args.map unplaced)
    (haction : action.lexeme = .keyword .actionDecl) (hname : name.lexeme = .name m)
    (hopen : opener.lexeme = .symbol .parenLeft) (hclose : closer.lexeme = .symbol .parenRight) :
    Carries N (action :: name :: opener :: us ++ [closer])
      (.operator ⟨.unknown, area⟩ .actionCall (.name ⟨.unknown, area₁⟩ m :: args))
      (some .actionCall) := by
  intro s hs
  refine ⟨apply .actionCall (reference m name.area :: args'), _, ?_, .whole,
    fun vs x hrest => .turn (.actionCall haction hname hopen (hs.settles s.operands) hargs hclose)
      hrest⟩
  simp only [unplaced_apply, unplaced_operator, map_cons, heq]
  rfl

theorem carries_index {list i i' : Expr} (hlist : Carries N ts list o)
    (hleft : index.admits .left o) (hi : N us i') (heq : i'.unplaced = i.unplaced)
    (hopen : opener.lexeme = .symbol .squareLeft) (hclose : closer.lexeme = .symbol .squareRight) :
    Carries N (ts ++ opener :: us ++ [closer]) (.operator ⟨.unknown, area⟩ .index [list, i])
      (some .index) := by
  intro s hs
  obtain ⟨list', s₁, heql, hholds, hread⟩ := hlist s (hs.left (.inr rfl) hleft)
  refine ⟨apply .index [list', i'], _, by simp [heql, heq], .whole, fun vs x hrest => ?_⟩
  have hturn := Turn.index hopen (hholds.settles hleft (hs.settles (list' :: s.operands))) hi hclose
  rw [append_assoc, append_assoc]
  exact hread _ x (by simpa using Reading.turn hturn hrest)

theorem operand?_of_lexeme? {v : Value} (h : v.lexeme? = some t.lexeme) :
    operand? t = some (constant v t.area) := by
  cases v <;> simp [Value.lexeme?] at h <;> simp [operand?, ← h]

/-- The tokens of a printing carry what it prints, if those of all shorter printings have a
reading.  The induction is on the number of tokens, since printings are nested in lists. -/
theorem carries_of_printing {n : Nat} (hN : Nests N n) {ls : List Lexeme} (h : Printing e o ls)
    (hts : ts.map lexeme = ls) (hlen : ts.length ≤ n) : Carries N ts e o := by
  induction hk : ts.length using Nat.strongRecOn generalizing ts e o ls with
  | ind k ih =>
    subst hk
    cases h with
    | literal hv =>
      obtain ⟨t, us, rfl, rfl, hus⟩ := map_eq_cons_iff.1 hts
      obtain rfl := map_eq_nil_iff.1 hus
      exact carries_operand (operand?_of_lexeme? hv) rfl
    | @name _ m =>
      obtain ⟨t, us, rfl, ht, hus⟩ := map_eq_cons_iff.1 hts
      obtain rfl := map_eq_nil_iff.1 hus
      have hoperand : operand? t = some (reference m t.area) := by
        simp only [operand?, ht]
      exact carries_operand hoperand rfl
    | group he =>
      obtain ⟨opener, us, closer, rfl, hopen, rfl, hclose⟩ := exists_enclosed hts
      simp only [length_append, length_cons] at hlen
      obtain ⟨e', hread, heq⟩ := hN (by omega) he
      exact carries_form (.group hopen hread hclose) heq
    | unary hw he hadmits =>
      obtain ⟨t, us, rfl, rfl, hus⟩ := map_eq_cons_iff.1 hts
      simp only [length_cons] at hlen
      exact carries_unary hw (ih us.length (by simp) he hus (by omega) rfl) hadmits
    | binary hw he₁ hleft he₂ hright =>
      obtain ⟨us, t, vs, rfl, hus, rfl, hvs⟩ := exists_split hts
      simp only [length_append, length_cons] at hlen
      exact carries_binary hw (ih us.length (by simp) he₁ hus (by omega) rfl) hleft
        (ih vs.length (by simp; omega) he₂ hvs (by omega) rfl) hright
    | call hf hleft hargs =>
      obtain ⟨us, closer, vs, rfl, hus, hclose, hvs⟩ := exists_split hts
      obtain ⟨us, opener, ws, rfl, hfn, hopen, hws⟩ := exists_split hus
      obtain rfl := map_eq_nil_iff.1 hvs
      simp only [length_append, length_cons] at hlen
      obtain ⟨args', heq, hread⟩ := args_of_items hN hargs hws (by omega)
      exact carries_call (ih us.length (by simp) hf hfn (by omega) rfl) hleft hread heq hopen hclose
    | actionCall hargs =>
      obtain ⟨us, closer, vs, rfl, hus, hclose, hvs⟩ := exists_split hts
      obtain ⟨action, us, rfl, haction, hus⟩ := map_eq_cons_iff.1 hus
      obtain ⟨name, us, rfl, hname, hus⟩ := map_eq_cons_iff.1 hus
      obtain ⟨opener, us, rfl, hopen, hus⟩ := map_eq_cons_iff.1 hus
      obtain rfl := map_eq_nil_iff.1 hvs
      simp only [length_append, length_cons] at hlen
      obtain ⟨args', heq, hread⟩ := args_of_items hN hargs hus (by omega)
      exact carries_actionCall hread heq haction hname hopen hclose
    | index he hleft hi =>
      obtain ⟨us, closer, vs, rfl, hus, hclose, hvs⟩ := exists_split hts
      obtain ⟨us, opener, ws, rfl, hlist, hopen, rfl⟩ := exists_split hus
      obtain rfl := map_eq_nil_iff.1 hvs
      simp only [length_append, length_cons] at hlen
      obtain ⟨i', hread, heq⟩ := hN (by omega) hi
      exact carries_index (ih us.length (by simp) he hlist (by omega) rfl) hleft hread heq
        hopen hclose
    | point hx hy =>
      obtain ⟨opener, us, closer, rfl, hopen, hus, hclose⟩ := exists_enclosed hts
      obtain ⟨us, comma, ws, rfl, rfl, hcomma, rfl⟩ := exists_split hus
      simp only [length_append, length_cons] at hlen
      obtain ⟨x', hreadx, heqx⟩ := hN (by omega) hx
      obtain ⟨y', hready, heqy⟩ := hN (by omega) hy
      exact carries_form (.point hopen hreadx hcomma hready hclose) (by simp [heqx, heqy])
    | list hes =>
      obtain ⟨opener, us, closer, rfl, hopen, hus, hclose⟩ := exists_enclosed hts
      simp only [length_append, length_cons] at hlen
      obtain ⟨es', heq, hread⟩ := list_of_items hN hes hus (by omega) opener hclose
      exact carries_form (.list hopen hread) (by simp [heq])
    | fill he hn =>
      obtain ⟨opener, us, closer, rfl, hopen, hus, hclose⟩ := exists_enclosed hts
      obtain ⟨us, semicolon, ws, rfl, rfl, hsemicolon, rfl⟩ := exists_split hus
      simp only [length_append, length_cons] at hlen
      obtain ⟨e', hread, heq⟩ := hN (by omega) he
      obtain ⟨count, hreadn, heqn⟩ := hN (by omega) hn
      exact carries_form (.list hopen (.fill hread hsemicolon hreadn hclose)) (by simp [heq, heqn])
    | range hw hes he =>
      obtain ⟨opener, us, closer, rfl, hopen, hus, hclose⟩ := exists_enclosed hts
      obtain ⟨us, dots, ws, rfl, hitems, hdots, rfl⟩ := exists_split hus
      simp only [length_append, length_cons] at hlen
      obtain ⟨e', hread, heq⟩ := hN (by omega) he
      obtain ⟨es', heqs, hrange⟩ :=
        range_of_commas hN hes hitems (by omega) hw hdots hread opener hclose
      exact carries_form (.list hopen hrange) (by simp [heqs, heq])
    | map he =>
      obtain ⟨opener, us, closer, rfl, hopen, hus, hclose⟩ := exists_enclosed hts
      simp only [length_append, length_cons] at hlen
      obtain ⟨us, forEach, ws, item, e', rfl, hitem, hfor, hclauses, heq⟩ :=
        clauses_of_clauses hN he hus (by omega)
      exact carries_form (.list hopen (.map hitem hfor hclauses hclose)) (by simp [heq])
    | filter he hcond =>
      obtain ⟨opener, us, closer, rfl, hopen, hus, hclose⟩ := exists_enclosed hts
      obtain ⟨us, whereCond, ws, rfl, rfl, hwhere, rfl⟩ := exists_split hus
      simp only [length_append, length_cons] at hlen
      obtain ⟨e', hread, heq⟩ := hN (by omega) he
      obtain ⟨cond', hreadc, heqc⟩ := hN (by omega) hcond
      exact carries_form (.list hopen (.filter hread hwhere hreadc hclose)) (by simp [heq, heqc])
    | mapFilter he hcond =>
      obtain ⟨opener, us, closer, rfl, hopen, hus, hclose⟩ := exists_enclosed hts
      obtain ⟨us, whereCond, ws, rfl, hitem, hwhere, rfl⟩ := exists_split hus
      simp only [length_append, length_cons] at hlen
      obtain ⟨us, forEach, ws', item, e', rfl, hitem, hfor, hclauses, heq⟩ :=
        clauses_of_clauses hN he hitem (by omega)
      obtain ⟨cond', hreadc, heqc⟩ := hN (by omega) hcond
      exact carries_form (.list hopen (.mapFilter hitem hfor hclauses hwhere hreadc hclose))
        (by simp [heq, heqc])
    | conditional hes hcomma =>
      obtain ⟨opener, us, closer, rfl, hopen, hus, hclose⟩ := exists_enclosed hts
      simp only [length_append, length_cons] at hlen
      obtain ⟨us, vs, cond, operands, rfl, hcond, harms, heq⟩ :=
        conditional_of_branches hN hes hcomma hus (by omega)
      exact carries_form (.conditional hopen hcond harms hclose) (by simp [heq])

/-- Every level of nesting reads the printings that have fewer tokens than there are levels. -/
theorem nests_exprWithin (depth : Nat) : Nests (Reads (exprWithin depth)) depth := by
  induction depth with
  | zero => exact fun hlen _ => absurd hlen (Nat.not_lt_zero _)
  | succ depth ih =>
    intro ts e o hlen h
    obtain ⟨e', hread, heq⟩ := (carries_of_printing ih h rfl (Nat.le_of_lt_succ hlen)).reading
    exact ⟨e', reads_exprWith hread, heq⟩

end Operators

/-- Reading inverts printing: the tokens of any way of printing an expression, with an end behind
them that is no part of expressions, are read as that expression, and the end is left. -/
theorem expr_run_of_printing {ends : Ends} (hends : ends.areOutside = true) {t : Token}
    (ht : ends.contains t.lexeme = true) {ts : List Token} {e : Expr} {o : Option Operation}
    (h : Printing e o (ts.map Token.lexeme)) (rest : List Token) (last : Option Location) :
    ∃ e', (expr ends).run ⟨ts ++ t :: rest, last⟩ = .ok e' ⟨t :: rest, last⟩ ∧
      e'.unplaced = e.unplaced := by
  have hdepth : ts.length < (Cursor.mk (ts ++ t :: rest) last).budget :=
    Cursor.length_lt_budget
  obtain ⟨e', hread, heq⟩ := nests_exprWithin _ hdepth h
  refine ⟨e', ?_, heq⟩
  unfold expr
  rw [run_get_bind]
  exact hread.run hends ht rest last

/-- Words that all stand at the start of a source. -/
def tokensOf (ls : List Lexeme) : List Token :=
  ls.map fun l => ⟨l, .start, .start⟩

/-- The words `- a . b ^ ( x + y )`, with a semicolon behind them. -/
theorem expr_run_of_printing_power :
    let reference (n : String) : Expr := .reference n .nowhere
    let e := apply .exponent [
      .apply .negate [.apply .memberAccess [reference "a", reference "b"]],
      .apply .add [reference "x", reference "y"]]
    let ts := tokensOf [.symbol .minus, .name "a", .symbol .dot, .name "b", .symbol .caret,
      .symbol .parenLeft, .name "x", .symbol .plus, .name "y", .symbol .parenRight]
    let semicolon : Token := ⟨.symbol .semicolon, .start, .start⟩
    Printing e (some .exponent) (ts.map lexeme) ∧
      ∃ e', (expr (.ofSymbols [.semicolon])).run ⟨ts ++ [semicolon], none⟩ =
        .ok e' ⟨[semicolon], none⟩ ∧ e'.unplaced = e.unplaced := by
  intro reference e ts semicolon
  have haccess : Printing (.apply .memberAccess [reference "a", reference "b"])
      (some .memberAccess) ([.name "a"] ++ .symbol .dot :: [.name "b"]) :=
    .binary (by decide) .name rfl .name rfl
  have hsum : Printing (.apply .add [reference "x", reference "y"])
      (some .add) ([.name "x"] ++ .symbol .plus :: [.name "y"]) :=
    .binary (by decide) .name rfl .name rfl
  have hprinting : Printing e (some .exponent)
      ((.symbol .minus :: ([.name "a"] ++ .symbol .dot :: [.name "b"])) ++ .symbol .caret ::
        (.symbol .parenLeft :: ([.name "x"] ++ .symbol .plus :: [.name "y"]) ++
          [.symbol .parenRight])) :=
    .binary (by decide) (.unary rfl haccess rfl) rfl (.group hsum) rfl
  exact ⟨hprinting, expr_run_of_printing rfl rfl hprinting [] none⟩

end Parser

end Diagram
