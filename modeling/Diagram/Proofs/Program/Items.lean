import Diagram.Proofs.Program.Shape
import Diagram.Token.Lexer

/-!
# Items of a program

An item of a program is read without regard to the program that it is added to.  It is added
unless the program has its name, or another block of its kind, already.

Main statements: `Parser.run_item_eq_ok`, `Program.WellMade.add`, `Program.Read.put`.
-/

namespace Diagram

open NameMap

def Token.ofText (text : String) : List Token :=
  (Token.scan (Text.Glyph.decode text.toUTF8.toList)).toOption.getD []

instance decidableExistsOk {ε α : Type} {r : Except ε α} {P : α → Prop} [∀ a, Decidable (P a)] :
    Decidable (∃ a, r = .ok a ∧ P a) :=
  match r with
  | .ok a => decidable_of_iff (P a) (by simp)
  | .error _ => .isFalse (by simp)

instance decidableExistsSome {α : Type} {o : Option α} {P : α → Prop} [∀ a, Decidable (P a)] :
    Decidable (∃ a, o = some a ∧ P a) :=
  match o with
  | some a => decidable_of_iff (P a) (by simp)
  | none => .isFalse (by simp)

/-- An item of a program. -/
inductive Item where
  | entries (es : List Expr)
  | ticker (t : Ticker)
  | display (es : List Element)
  | action (sig : Signature) (body : Action)
  | value (sig : Signature) (body : Expr)
  | enum (sig : Signature) (variants : List String)
  /-- A semicolon between others. -/
  | blank

def Declares.isValue : Declares → Bool
  | const | letValue | var => true
  | _ => false

/-- A signature as it is written.  Its names are those of tokens, its types are written, apart from
that of an action, and only the types of values may be left to be inferred. -/
structure Signature.Written (tokens : List Token) (sig : Signature) : Prop where
  name : Token.Spells tokens sig.name
  kind : sig.declares.isValue = true ∨ sig.declares = .action ∨ sig.declares = .enum
  ty : sig.ty.Over fun u => (∃ n, u = .user n) ∨ u = .action sig.name
  known : sig.declares.isValue = false → sig.ty.isUnknown = false
  params : ∀ q ∈ sig.paramList, q.ty.Written ∧ Token.Spells tokens q.name

namespace Item

variable (tokens : List Token)

def WellMade : Item → Prop
  | action sig _ => sig.declares = .action ∧ sig.Written tokens
  | value sig _ => sig.declares.isValue = true ∧ sig.Written tokens
  | enum sig _ => sig.declares = .enum ∧ sig.Written tokens
  | _ => True

/-- The expressions, actions and elements of an item are as they are read. -/
def Whole : Item → Prop
  | entries es => ∀ e ∈ es, e.Shaped tokens
  | ticker t =>
    (∀ e, t.interval = some e → e.Shaped tokens) ∧ t.action.Whole (Expr.Shaped tokens)
  | display es => ∀ e ∈ es, e.Whole (Expr.Quantity tokens) (Expr.Shaped tokens)
  | action _ body => body.Whole (Expr.Shaped tokens)
  | value _ body => body.Shaped tokens
  | _ => True

def Read (i : Item) : Prop :=
  i.WellMade tokens ∧ i.Whole tokens

/-- Whether a program has the name of an item, or another block of its kind. -/
def taken (p : Program) : Item → Bool
  | entries _ => p.entries.isSome
  | ticker _ => p.ticker.isSome
  | display _ => p.display.isSome
  | action sig _ | value sig _ | enum sig _ => p.signatures.contains sig.name
  | blank => false

/-- The program with one more item, whatever it has already. -/
def put (p : Program) : Item → Program
  | entries es => { p with entries := some es }
  | ticker t => { p with ticker := some t }
  | display es => { p with display := some es }
  | action sig body =>
    { p with
      signatures := p.signatures.insert sig.name sig
      actions := p.actions.insert sig.name body }
  | value sig body =>
    { p with
      signatures := p.signatures.insert sig.name sig
      identifiers := p.identifiers.insert sig.name body }
  | enum sig variants =>
    { p with
      signatures := p.signatures.insert sig.name sig
      enums := p.enums.insert sig.name variants }
  | blank => p

/-- The program with one more item, unless that is in conflict with another. -/
def add? (p : Program) (i : Item) : Option Program :=
  if i.taken p then none else some (i.put p)

end Item

namespace Parser

def entriesItem : Parser Item := do
  blockOpen
  return .entries (← blockItems (expr (.ofSymbols [.semicolon, .curlyRight])))

def tickerItem : Parser Item := do
  advance
  if ← atSymbol .parenLeft then
    advance
    let interval ← expr (.ofSymbols [.parenRight])
    advance
    return .ticker ⟨some interval, ← action false⟩
  else
    return .ticker ⟨none, ← action false⟩

def displayItem : Parser Item := do
  blockOpen
  return .display (← blockItems element)

def actionItem : Parser Item := do
  advance
  let (t, name) ← nameToken
  let ps ← params
  let body ← action false
  return .action { Signature.plain .action name ps with ty := .action name, area := t.area } body

def valueItem (declares : Declares) : Parser Item := do
  advance
  let (t, name) ← nameToken
  let ps ← params
  let declared ← declaredTy
  let value ← definition
  return .value { Signature.plain declares name ps with ty := declared, area := t.area } value

def varItem : Parser Item := do
  advance
  let timer ← atKeyword .timer
  if timer then advance
  let (t, name) ← nameToken
  advance
  let declared ← declaredTy
  let value ← definition
  return .value
    { Signature.plain .var name none with ty := declared, timer := timer, area := t.area } value

def enumItem : Parser Item := do
  advance
  let (t, name) ← nameToken
  blockOpen
  let variants ← untilSymbol .curlyRight variant
  advance
  return .enum
    { Signature.plain .enum name none with
      ty := .user name, variants := variants, area := t.area } variants

/-- An item, apart from the program that it belongs to. -/
def itemAlone : Parser Item := do
  expectOneOf itemStarts
  let t ← token .absent
  match t.lexeme with
  | .keyword .publicBlock => entriesItem
  | .keyword .tickerBlock => tickerItem
  | .keyword .displayBlock => displayItem
  | .keyword .actionDecl => actionItem
  | .keyword .constDecl => valueItem .const
  | .keyword .letDecl => valueItem .letValue
  | .keyword .varDecl => varItem
  | .keyword .enumDecl => enumItem
  | _ => do
    advance
    return .blank

section Runs

variable {p q : Program} {c d : Cursor}

def AddsTo (p : Program) (m : Parser Program) (alone : Parser Item) : Prop :=
  ∀ ⦃c d q⦄, m.run c = .ok q d ↔ ∃ i, alone.run c = .ok i d ∧ i.add? p = some q

protected theorem AddsTo.bind {α : Type} {m : Parser α} {f : α → Parser Program}
    {g : α → Parser Item} (h : ∀ a, AddsTo p (f a) (g a)) : AddsTo p (m >>= f) (m >>= g) := by
  intro c d q
  simp only [run_bind_eq_ok]
  constructor
  · rintro ⟨a, c', hm, hf⟩
    obtain ⟨i, hi, hadd⟩ := (h a).1 hf
    exact ⟨i, ⟨a, c', hm, hi⟩, hadd⟩
  · rintro ⟨i, ⟨a, c', hm, hi⟩, hadd⟩
    exact ⟨a, c', hm, (h a).2 ⟨i, hi, hadd⟩⟩

variable {m : Parser Program} {i : Item} {b : Prop} {t : Token}

protected theorem AddsTo.pure (h : i.add? p = some q) : AddsTo p (pure q) (pure i) := by
  intro c d q'
  simp only [run_pure_eq_ok]
  constructor
  · rintro ⟨rfl, rfl⟩
    exact ⟨i, ⟨rfl, rfl⟩, h⟩
  · rintro ⟨_, ⟨rfl, rfl⟩, hadd⟩
    exact ⟨Option.some.inj (h.symm.trans hadd), rfl⟩

protected theorem AddsTo.ite [Decidable b] {n : Parser Program} {m' n' : Parser Item}
    (hm : AddsTo p m m') (hn : AddsTo p n n') : AddsTo p (if b then m else n) (if b then m' else n') := by
  split
  · exact hm
  · exact hn

protected theorem AddsTo.when [Decidable b] {m : Parser Unit} {f : Unit → Parser Program}
    {g : Unit → Parser Item} (h : ∀ u, AddsTo p (f u) (g u)) :
    AddsTo p (if b then m >>= f else f ()) (if b then m >>= g else g ()) :=
  .ite (.bind h) (h ())

theorem addsTo_block {taken : Bool} {area : Area} {cause : Cause} {alone : Parser Item}
    (htaken : taken → ∀ c d i, alone.run c = .ok i d → i.add? p = none)
    (h : taken = false → AddsTo p m alone) :
    AddsTo p (if taken then failAt area cause else m) alone := by
  cases taken with
  | false => exact h rfl
  | true =>
    intro c d q
    refine ⟨fun hrun => absurd hrun run_failAt_ne_ok, ?_⟩
    rintro ⟨i, hi, hadd⟩
    rw [htaken rfl c d i hi] at hadd
    cases hadd

theorem addsTo_declare {sig : Signature} {f : Program → Program}
    (h : i.add? p = if p.signatures.contains sig.name then none
      else some (f { p with
        signatures := p.signatures.insert sig.name { sig with area := t.area } })) :
    AddsTo p (declare p sig t >>= fun p => pure (f p)) (pure i) := by
  intro c d q
  simp only [run_bind_eq_ok, run_pure_eq_ok]
  unfold declare Signatures.add
  cases hget : p.signatures.get? sig.name with
  | some previous =>
    have hcontains : p.signatures.contains sig.name = true :=
      contains_eq_true_iff.2 ⟨previous, hget⟩
    rw [if_pos hcontains] at h
    constructor
    · rintro ⟨q', c', hrun, -⟩
      exact absurd hrun run_failAt_ne_ok
    · rintro ⟨_, ⟨rfl, rfl⟩, hadd⟩
      simp [h] at hadd
  | none =>
    have hcontains : ¬p.signatures.contains sig.name = true := by
      simp [contains, hget]
    rw [if_neg hcontains] at h
    constructor
    · rintro ⟨q', c', hrun, rfl, rfl⟩
      cases hrun
      exact ⟨i, ⟨rfl, rfl⟩, h⟩
    · rintro ⟨_, ⟨rfl, rfl⟩, hadd⟩
      exact ⟨_, _, rfl, Option.some.inj (h.symm.trans hadd), rfl⟩

theorem addsTo_publicBlock : AddsTo p (publicBlock p t) entriesItem := by
  refine addsTo_block (fun htaken c d i hi => ?_) fun hfree => ?_
  · simp only [entriesItem, run_bind_eq_ok, run_pure_eq_ok] at hi
    obtain ⟨_, _, -, _, _, -, rfl, -⟩ := hi
    simp [Item.add?, Item.taken, htaken]
  · exact .bind fun _ => .bind fun _ =>
      .pure (by simp [Item.add?, Item.taken, Item.put, hfree])

theorem addsTo_displayBlock : AddsTo p (displayBlock p t) displayItem := by
  refine addsTo_block (fun htaken c d i hi => ?_) fun hfree => ?_
  · simp only [displayItem, run_bind_eq_ok, run_pure_eq_ok] at hi
    obtain ⟨_, _, -, _, _, -, rfl, -⟩ := hi
    simp [Item.add?, Item.taken, htaken]
  · exact .bind fun _ => .bind fun _ =>
      .pure (by simp [Item.add?, Item.taken, Item.put, hfree])

theorem addsTo_tickerBlock : AddsTo p (tickerBlock p t) tickerItem := by
  refine addsTo_block (fun htaken c d i hi => ?_) fun hfree => ?_
  · have hticker : ∃ ticker, i = .ticker ticker := by
      simp only [tickerItem, run_bind_eq_ok] at hi
      obtain ⟨_, _, -, b, _, -, hi⟩ := hi
      cases b with
      | true =>
        simp only [if_true, run_bind_eq_ok, run_pure_eq_ok] at hi
        obtain ⟨_, _, -, _, _, -, _, _, -, _, _, -, rfl, -⟩ := hi
        exact ⟨_, rfl⟩
      | false =>
        simp only [Bool.false_eq_true, if_false, run_bind_eq_ok, run_pure_eq_ok] at hi
        obtain ⟨_, _, -, rfl, -⟩ := hi
        exact ⟨_, rfl⟩
    obtain ⟨ticker, rfl⟩ := hticker
    simp [Item.add?, Item.taken, htaken]
  · have hadd : ∀ ticker, Item.add? p (.ticker ticker) = some { p with ticker := some ticker } := by
      simp [Item.add?, Item.taken, Item.put, hfree]
    refine .bind fun _ => .bind fun _ => .ite ?_ ?_
    · refine .bind fun _ => .bind fun _ => .bind fun _ => .bind fun _ => ?_
      exact .pure (hadd _)
    · exact .bind fun _ => .pure (hadd _)

theorem addsTo_actionDecl : AddsTo p (actionDecl p) actionItem := by
  refine .bind fun _ => .bind fun _ => .bind fun _ => .bind fun body => ?_
  exact addsTo_declare (f := fun p => { p with actions := p.actions.insert _ body }) rfl

theorem addsTo_valueDecl {declares : Declares} :
    AddsTo p (valueDecl p declares) (valueItem declares) := by
  refine .bind fun _ => .bind fun _ => .bind fun _ => .bind fun _ => ?_
  refine .bind fun value => ?_
  exact addsTo_declare (f := fun p => { p with identifiers := p.identifiers.insert _ value }) rfl

theorem addsTo_varDecl : AddsTo p (varDecl p) varItem := by
  refine .bind fun _ => .bind fun _ => .when fun _ => .bind fun _ => ?_
  refine .bind fun _ => .bind fun _ => .bind fun value => ?_
  exact addsTo_declare (f := fun p => { p with identifiers := p.identifiers.insert _ value }) rfl

theorem addsTo_enumDecl : AddsTo p (enumDecl p) enumItem := by
  refine .bind fun _ => .bind fun _ => .bind fun _ => ?_
  refine .bind fun variants => .bind fun _ => ?_
  exact addsTo_declare (f := fun p => { p with enums := p.enums.insert _ variants }) rfl

theorem run_item_eq_ok :
    (item p).run c = .ok q d ↔ ∃ i, itemAlone.run c = .ok i d ∧ i.add? p = some q := by
  have hitem : AddsTo p (item p) itemAlone := by
    have hblank : AddsTo p (advance >>= fun _ => pure p) (advance >>= fun _ => pure .blank) :=
      .bind fun _ => .pure rfl
    refine .bind fun _ => .bind fun t => ?_
    cases t.lexeme with
    | keyword k =>
      cases k with
      | publicBlock => exact addsTo_publicBlock
      | tickerBlock => exact addsTo_tickerBlock
      | displayBlock => exact addsTo_displayBlock
      | actionDecl => exact addsTo_actionDecl
      | constDecl | letDecl => exact addsTo_valueDecl
      | varDecl => exact addsTo_varDecl
      | enumDecl => exact addsTo_enumDecl
      | _ => exact hblank
    | _ => exact hblank
  exact @hitem c d q

end Runs

end Parser

namespace Signatures

def Lists {α : Type} (sigs : Signatures) (kind : Declares → Bool) (table : NameMap α) : Prop :=
  ∀ n, table.contains n = true ↔ ∃ sig, sigs.get? n = some sig ∧ kind sig.declares = true

variable {α : Type} {sigs : Signatures} {kind : Declares → Bool} {table : NameMap α}
  {sig : Signature}

theorem Lists.insert (h : sigs.Lists kind table) (hkind : kind sig.declares) (a : α) :
    Lists (sigs.insert sig.name sig) kind (table.insert sig.name a) := by
  intro n
  rw [contains_insert, get?_insert]
  by_cases hn : n = sig.name
  · simp [hn, hkind]
  · simpa [hn] using h n

theorem Lists.skip (h : sigs.Lists kind table) (hfree : ¬sigs.contains sig.name)
    (hkind : kind sig.declares = false) : Lists (sigs.insert sig.name sig) kind table := by
  intro n
  rw [get?_insert]
  by_cases hn : n = sig.name
  · subst hn
    have hout : ¬table.contains sig.name = true := fun hin =>
      let ⟨sig', hget, _⟩ := (h sig.name).1 hin
      hfree (contains_eq_true_iff.2 ⟨sig', hget⟩)
    simp [hout, hkind]
  · simpa [hn] using h n

end Signatures

namespace Program

/-- A program that was read: names are declared as what they are defined as, under their own
names, with types that are written. -/
structure WellMade (tokens : List Token) (p : Program) : Prop where
  keyed : ∀ n sig, p.signatures.get? n = some sig → sig.name = n
  written : ∀ n sig, p.signatures.get? n = some sig → sig.Written tokens
  values : p.signatures.Lists Declares.isValue p.identifiers
  acts : p.signatures.Lists (· == .action) p.actions
  enumerates : p.signatures.Lists (· == .enum) p.enums

/-- `P'` holds of the quantities of the elements of a program, and `P` of its other expressions. -/
structure Whole (P' P : Expr → Prop) (p : Program) : Prop where
  identifiers : ∀ n e, p.identifiers.get? n = some e → P e
  actions : ∀ n a, p.actions.get? n = some a → a.Whole P
  entries : ∀ es, p.entries = some es → ∀ e ∈ es, P e
  interval : ∀ t e, p.ticker = some t → t.interval = some e → P e
  tick : ∀ t, p.ticker = some t → t.action.Whole P
  display : ∀ es, p.display = some es → ∀ e ∈ es, e.Whole P' P

/-- A program is made of expressions as they are read. -/
abbrev Read (tokens : List Token) (p : Program) : Prop :=
  p.Whole (Expr.Quantity tokens) (Expr.Shaped tokens)

variable {tokens : List Token} {p q : Program}

theorem wellMade_empty : Program.empty.WellMade tokens := by
  constructor <;>
    simp [Program.empty, NameMap.empty, NameMap.get?, Signatures.Lists, NameMap.contains]

theorem WellMade.insert (h : p.WellMade tokens) {sig : Signature} (hsig : sig.Written tokens)
    {identifiers : NameMap Expr} {actions : NameMap Action} {enums : NameMap (List String)}
    (hvalues : Signatures.Lists (p.signatures.insert sig.name sig) Declares.isValue identifiers)
    (hacts : Signatures.Lists (p.signatures.insert sig.name sig) (· == .action) actions)
    (henumerates : Signatures.Lists (p.signatures.insert sig.name sig) (· == .enum) enums) :
    WellMade tokens { p with
      signatures := p.signatures.insert sig.name sig
      identifiers := identifiers
      actions := actions
      enums := enums } where
  keyed := forall_get?_insert h.keyed rfl
  written := forall_get?_insert h.written hsig
  values := hvalues
  acts := hacts
  enumerates := henumerates

theorem WellMade.add (h : p.WellMade tokens) {i : Item} (hi : i.WellMade tokens)
    (hadd : i.add? p = some q) : q.WellMade tokens := by
  cases i with
  | blank =>
    cases hadd
    exact h
  | entries es | ticker t | display es =>
    obtain ⟨_, heq⟩ := Option.ite_none_left_eq_some.1 hadd
    cases heq
    exact { h with }
  | action sig body =>
    obtain ⟨hfree, heq⟩ := Option.ite_none_left_eq_some.1 hadd
    cases heq
    exact h.insert hi.2 (h.values.skip hfree (by simp [hi.1, Declares.isValue]))
      (h.acts.insert (by simp [hi.1]) body) (h.enumerates.skip hfree (by simp [hi.1]))
  | enum sig variants =>
    obtain ⟨hfree, heq⟩ := Option.ite_none_left_eq_some.1 hadd
    cases heq
    exact h.insert hi.2 (h.values.skip hfree (by simp [hi.1, Declares.isValue]))
      (h.acts.skip hfree (by simp [hi.1])) (h.enumerates.insert (by simp [hi.1]) variants)
  | value sig body =>
    obtain ⟨hfree, heq⟩ := Option.ite_none_left_eq_some.1 hadd
    cases heq
    have hother : ∀ kind : Declares, kind.isValue = false → (sig.declares == kind) = false := by
      intro kind hkind
      refine beq_false_of_ne fun heq => ?_
      simp [← heq, hi.1] at hkind
    exact h.insert hi.2 (h.values.insert hi.1 body) (h.acts.skip hfree (hother .action rfl))
      (h.enumerates.skip hfree (hother .enum rfl))

theorem read_empty : Program.empty.Read tokens := by
  constructor <;> simp [Program.empty, NameMap.empty, NameMap.get?]

theorem Read.put (h : p.Read tokens) {i : Item} (hi : i.Whole tokens) : (i.put p).Read tokens := by
  cases i with
  | blank | enum sig variants => exact { h with }
  | entries es => exact { h with entries := fun _ heq => Option.some.inj heq ▸ hi }
  | display es => exact { h with display := fun _ heq => Option.some.inj heq ▸ hi }
  | ticker t =>
    exact { h with
      interval := fun _ e heq he => hi.1 e (Option.some.inj heq ▸ he)
      tick := fun _ heq => Option.some.inj heq ▸ hi.2 }
  | action sig body => exact { h with actions := forall_get?_insert h.actions hi }
  | value sig body => exact { h with identifiers := forall_get?_insert h.identifiers hi }

theorem WellMade.shaped (h : p.WellMade tokens) (hread : p.Read tokens) : p.Shaped tokens :=
  { hread with
    signatures := by
      intro n sig hsig
      have hwritten := h.written n sig hsig
      refine ⟨fun haction henum => (h.values n).2 ⟨sig, hsig, ?_⟩,
        fun q hq => (hwritten.params q hq).1.within _, ?_⟩
      · exact hwritten.kind.resolve_right (not_or.2 ⟨haction, henum⟩)
      · -- No type that is written names a function, so it fits the definitions of any program.
        refine Ty.Over.mono ?_ hwritten.ty
        rintro _ (⟨m, rfl⟩ | rfl) k hk <;> cases hk
    signed := fun n hn =>
      let ⟨sig, hsig, _⟩ := (h.values n).1 hn
      contains_eq_true_iff.2 ⟨sig, hsig⟩
    actionSigned := fun n hn =>
      let ⟨sig, hsig, _⟩ := (h.acts n).1 hn
      contains_eq_true_iff.2 ⟨sig, hsig⟩ }

end Program

end Diagram
