import Diagram.Proofs.Parser.Reading

/-!
# Shapes of expressions that are read

An expression grows from tokens: the operands of each of its operations stand in a row there, one
after another.  So it stands, with all of its parts, between a start and an end of these tokens, and
each of its operations has as many operands as it takes.

Main statements: `expr_grown`, `expr_shaped`.
-/

namespace Diagram

open List Operation

/-- Induction on expressions, in which a property holds of all operands of an operation. -/
@[elab_as_elim]
theorem Expr.operandInduction {motive : Expr → Prop}
    (literal : ∀ info v, motive (.literal info v)) (name : ∀ info n, motive (.name info n))
    (timeStep : ∀ info, motive (.timeStep info))
    (operator : ∀ info op operands, (∀ e ∈ operands, motive e) →
      motive (.operator info op operands)) (e : Expr) : motive e :=
  @Expr.rec motive (fun es => ∀ e ∈ es, motive e) literal name timeStep operator
    (by simp) (fun _ _ he hes => forall_mem_cons.2 ⟨he, hes⟩) e

def Operation.takes : Operation → Nat → Bool
  | listLiteral, _ | conditional, _ => true
  | call, n | actionCall, n => 1 ≤ n
  | exclusiveRange, n | inclusiveRange, n => 2 ≤ n
  | builtIn, n | posate, n | negate, n | not, n => n == 1
  | listMap, n => n == 3
  | other _, _ => false
  | _, n => n == 2

/-- An area starts where one of some tokens starts and stops where one of them stops. -/
def Area.Among (tokens : List Token) (a : Area) : Prop :=
  (∃ t ∈ tokens, a.start = some t.start) ∧ ∃ t ∈ tokens, a.stop = some t.stop

def Token.Spells (tokens : List Token) (n : String) : Prop :=
  ∃ t ∈ tokens, t.lexeme = .name n

/-- Whether a type is built in and is not that of a list. -/
def Ty.isPlain : Ty → Bool
  | list _ | function _ | action _ | user _ => false
  | _ => true

theorem Expr.mem_nodes_self (e : Expr) : e ∈ e.nodes := by
  cases e <;> simp [nodes]

theorem Expr.forall_nodesOf_iff {Q : Expr → Prop} {es : List Expr} :
    (∀ x ∈ nodesOf es, Q x) ↔ ∀ e ∈ es, ∀ x ∈ e.nodes, Q x := by
  induction es with
  | nil => simp [nodesOf]
  | cons e es ih => rw [nodesOf, forall_mem_append, ih, forall_mem_cons]

/-- An expression as it is read from some tokens. -/
inductive Expr.Shaped (tokens : List Token) : Expr → Prop
  | literal {area v} (harea : area.Among tokens) (hv : v.ty.isPlain = true) :
      Shaped tokens (.literal ⟨v.ty, area⟩ v)
  | name {area n} (harea : area.Among tokens) (hname : Token.Spells tokens n) :
      Shaped tokens (.name ⟨.unknown, area⟩ n)
  | operator {area op operands} (harea : area.Among tokens)
      (htakes : op.takes operands.length = true) (hoperands : ∀ e ∈ operands, Shaped tokens e) :
      Shaped tokens (.operator ⟨.unknown, area⟩ op operands)

variable {tokens : List Token} {t : Token}

theorem Area.among_between {u : Token} (ht : t ∈ tokens) (hu : u ∈ tokens) :
    (Area.between t.start u.stop).Among tokens :=
  ⟨⟨t, ht, rfl⟩, ⟨u, hu, rfl⟩⟩

theorem Token.among_area (ht : t ∈ tokens) : t.area.Among tokens :=
  Area.among_between ht ht

namespace Expr

variable {e : Expr}

theorem Shaped.area (h : e.Shaped tokens) : e.area.Among tokens := by
  cases h with
  | literal harea _ | name harea _ | operator harea _ _ => exact harea

/-- An operation covers the source from its first operand to its last. -/
theorem shaped_apply {op : Operation} {operands : List Expr}
    (htakes : op.takes operands.length) (hne : operands ≠ [])
    (h : ∀ e ∈ operands, e.Shaped tokens) : (Expr.apply op operands).Shaped tokens := by
  have hfirst := (h _ (head_mem hne)).area.1
  have hlast := (h _ (getLast_mem hne)).area.2
  refine .operator ⟨?_, ?_⟩ htakes h
  · simpa [head?_eq_some_head hne] using hfirst
  · simpa [getLast?_eq_some_getLast hne] using hlast

end Expr

namespace Parser

theorem shaped_of_operand? {t : Token} {e : Expr} (ht : t ∈ tokens) (h : operand? t = some e) :
    e.Shaped tokens := by
  have harea := Token.among_area ht
  unfold operand? at h
  split at h <;> cases h
  · rename_i hname
    exact .name harea ⟨t, ht, hname⟩
  · exact .literal harea rfl
  · exact .literal harea rfl
  · exact .literal harea rfl
  · exact .literal harea rfl

/-- Expressions that stand one after another in some tokens, with other tokens between them. -/
inductive Row (G : List Token → Expr → Prop) : List Token → List Expr → Prop
  | nil : Row G [] []
  | skip {t ts es} (hrest : Row G ts es) : Row G (t :: ts) es
  | cons {ts us e es} (hfirst : G ts e) (hrest : Row G us es) : Row G (ts ++ us) (e :: es)

/-- What may grow from tokens: an operand, an operation on operands that stand in a row, and a form
in brackets around such a row. -/
inductive Grows : List Token → Expr → Prop
  | leaf {t e} (hleaf : operand? t = some e) : Grows [t] e
  | apply {ts op operands} (htakes : op.takes operands.length = true) (hne : operands ≠ [])
      (hrow : Row Grows ts operands) : Grows ts (Expr.apply op operands)
  | bracket {ts opener closer op operands} (htakes : op.takes operands.length = true)
      (hrow : Row Grows ts operands) :
      Grows (opener :: ts ++ [closer]) (enclosed opener closer (Expr.apply op operands))

/-- Induction on what grows, in which a relation holds along the row of the operands. -/
@[elab_as_elim]
theorem Grows.rowInduction {motive : List Token → Expr → Prop}
    (leaf : ∀ {t e}, operand? t = some e → motive [t] e)
    (apply : ∀ {ts} {op : Operation} {operands}, op.takes operands.length → operands ≠ [] →
      Row motive ts operands → motive ts (Expr.apply op operands))
    (bracket : ∀ {ts opener closer} {op : Operation} {operands},
      op.takes operands.length → Row motive ts operands →
      motive (opener :: ts ++ [closer]) (enclosed opener closer (Expr.apply op operands)))
    {ts : List Token} {e : Expr} (h : Grows ts e) : motive ts e :=
  @Grows.rec (fun ts e _ => motive ts e) (fun ts es _ => Row motive ts es) leaf
    (fun htakes hne _ hrow => apply htakes hne hrow) (fun htakes _ hrow => bracket htakes hrow)
    .nil (fun _ hrest => .skip hrest) (fun _ _ hfirst hrest => .cons hfirst hrest) ts e h

namespace Row

variable {G H : List Token → Expr → Prop} {ts us : List Token} {es fs : List Expr}

theorem append (h : Row G ts es) (h' : Row G us fs) : Row G (ts ++ us) (es ++ fs) := by
  induction h with
  | nil => exact h'
  | skip _ ih => exact .skip ih
  | cons hfirst _ ih =>
    rw [append_assoc]
    exact .cons hfirst ih

theorem blank (ts : List Token) : Row G ts [] := by
  induction ts with
  | nil => exact .nil
  | cons t ts ih => exact .skip ih

theorem behind (h : Row G ts es) (us : List Token) : Row G (ts ++ us) es := by
  simpa using h.append (blank us)

theorem one {e : Expr} (h : G ts e) : Row G ts [e] := by
  simpa using cons h nil

theorem split (h : Row G ts (es ++ fs)) : ∃ us vs, ts = us ++ vs ∧ Row G us es ∧ Row G vs fs := by
  generalize hall : es ++ fs = all at h
  induction h generalizing es with
  | nil =>
    obtain ⟨rfl, rfl⟩ := append_eq_nil_iff.1 hall
    exact ⟨[], [], rfl, .nil, .nil⟩
  | skip _ ih =>
    obtain ⟨us, vs, rfl, hes, hfs⟩ := ih hall
    exact ⟨_ :: us, vs, rfl, .skip hes, hfs⟩
  | cons hfirst hrest ih =>
    cases es with
    | nil =>
      subst hall
      exact ⟨[], _, rfl, .nil, .cons hfirst hrest⟩
    | cons e es =>
      obtain ⟨rfl, hrest⟩ := cons.inj hall
      obtain ⟨us, vs, rfl, hes, hfs⟩ := ih hrest
      exact ⟨_ ++ us, vs, by simp, .cons hfirst hes, hfs⟩

theorem mono (h : Row G ts es) (hGH : ∀ {ts e}, G ts e → H ts e) : Row H ts es := by
  induction h with
  | nil => exact .nil
  | skip _ ih => exact .skip ih
  | cons hfirst _ ih => exact .cons (hGH hfirst) ih

theorem forall_mem {Q : Expr → Prop} (h : Row (fun ts e => ts ⊆ tokens → Q e) ts es)
    (hts : ts ⊆ tokens) : ∀ e ∈ es, Q e := by
  induction h with
  | nil => simp
  | skip _ ih => exact ih (subset_of_cons_subset hts)
  | cons hfirst _ ih =>
    obtain ⟨hts, hus⟩ := append_subset.1 hts
    exact forall_mem_cons.2 ⟨hfirst hts, ih hus⟩

end Row

theorem Grows.shaped {ts : List Token} {e : Expr} (h : Grows ts e) :
    ts ⊆ tokens → e.Shaped tokens := by
  refine Grows.rowInduction (motive := fun ts e => ts ⊆ tokens → e.Shaped tokens) ?_ ?_ ?_ h
  · intro t e hleaf hts
    exact shaped_of_operand? (hts mem_cons_self) hleaf
  · intro ts op operands htakes hne hrow hts
    exact Expr.shaped_apply htakes hne (hrow.forall_mem hts)
  · intro ts opener closer op operands htakes hrow hts
    simp only [append_subset, cons_subset] at hts
    exact .operator (Area.among_between hts.1.1 hts.2.1) htakes (hrow.forall_mem hts.1.2)

/-- One expression grows from some of the tokens. -/
def Grown (ts : List Token) (e : Expr) : Prop :=
  Row Grows ts [e]

section Forms

variable {ts us : List Token} {e : Expr} {opener closer : Token} {operands : List Expr}
  {op : Operation}

theorem grown_apply (h : Row Grows ts operands) (hne : operands ≠ [])
    (htakes : op.takes operands.length) : Grown ts (Expr.apply op operands) :=
  .one (.apply htakes hne h)

/-- The last expressions of a row may become the operands of an operation. -/
theorem Row.group (h : Row Grows ts (es ++ operands)) (hne : operands ≠ [])
    (htakes : op.takes operands.length) :
    Row Grows ts (es ++ [Expr.apply op operands]) := by
  obtain ⟨us, vs, rfl, hes, hoperands⟩ := h.split
  exact hes.append (grown_apply hoperands hne htakes)

theorem grown_enclosed (h : Row Grows ts operands) (htakes : op.takes operands.length) :
    Grown (opener :: ts ++ [closer]) (enclosed opener closer (Expr.apply op operands)) :=
  .one (.bracket htakes h)

theorem row_of_args {args : List Expr} (h : ArgsReading Grown ts args) : Row Grows ts args := by
  induction h with
  | nil => exact .nil
  | last harg => exact harg
  | cons harg _ _ ih => exact harg.append (.skip ih)

/-- A comprehension is an operation on a row if it has a clause. -/
theorem row_of_clauses {e' : Expr} (h : ClausesReading Grown e ts e') (he : Grown us e) :
    (ts = [] ∧ e' = e) ∨ ∃ operands, Row Grows (us ++ ts) operands ∧ operands.length = 3 ∧
      e' = Expr.apply .listMap operands := by
  induction h generalizing us with
  | done => exact .inl ⟨rfl, rfl⟩
  | @next _ _ _ forEach inList _ _ _ _ _ hbound _ hsource _ ih =>
    have hrow := Row.append he (.skip (t := forEach) (hbound.append (.skip (t := inList) hsource)))
    rcases ih (grown_apply hrow (by simp) rfl) with ⟨rfl, rfl⟩ | ⟨operands, hrest⟩
    · exact .inr ⟨_, by simpa using hrow, rfl, rfl⟩
    · exact .inr ⟨operands, by simpa using hrest⟩

theorem grown_of_list {items : List Expr} (h : ListReading Grown opener items ts e)
    (hitems : Row Grows us items) : Grown (opener :: us ++ ts) e := by
  induction h generalizing us with
  | close _ => exact grown_enclosed hitems rfl
  | last hitem _ => simpa using grown_enclosed (hitems.append hitem) rfl
  | next hitem _ _ ih => simpa using ih (hitems.append (hitem.behind [_]))
  | fill hitem _ hsecond _ | filter hitem _ hsecond _ =>
    simpa using grown_enclosed (hitems.append (hitem.append (.skip hsecond))) rfl
  | map hitem _ hclauses _ =>
    rcases row_of_clauses hclauses (hitems.append hitem) with ⟨hnil, -⟩ | ⟨operands, hrow, hthree, rfl⟩
    · cases hnil
    · simpa using grown_enclosed hrow (by simp [takes, hthree])
  | mapFilter hitem _ hclauses _ hcond _ =>
    rcases row_of_clauses hclauses (hitems.append hitem) with ⟨hnil, -⟩ | ⟨operands, hrow, hthree, rfl⟩
    · cases hnil
    · have hmapped := grown_apply hrow (ne_nil_of_length_eq_add_one hthree)
        (show listMap.takes _ = true by simp [takes, hthree])
      simpa using grown_enclosed (hmapped.append (.skip hcond)) rfl
  | @range _ _ _ dots _ _ _ _ _ hop hitem _ hlast _ =>
    have hrow := hitems.append (hitem.append (.skip (t := dots) hlast))
    rcases hop with ⟨-, rfl⟩ | ⟨-, rfl⟩ <;>
      simpa using grown_enclosed hrow (by simp [takes])

theorem row_of_arms {result : List Expr} (h : ArmsReading Grown operands ts result)
    (hoperands : Row Grows us operands) : Row Grows (us ++ ts) result := by
  induction h generalizing us with
  | value _ hvalue => exact hoperands.append (.skip hvalue)
  | valueComma _ hvalue _ => exact hoperands.append (.skip (hvalue.behind _))
  | default _ hvalue _ hother =>
    exact hoperands.append (.skip (hvalue.append (.skip hother)))
  | defaultComma _ hvalue _ hother _ =>
    exact hoperands.append (.skip ((hvalue.append (.skip hother)).behind _))
  | next _ hvalue _ hcond _ ih =>
    simpa using ih (hoperands.append (.skip (hvalue.append (.skip hcond))))

theorem grown_of_form (h : FormReading Grown ts e) : Grown ts e := by
  cases h with
  | group _ hcontent _ => exact .skip (hcontent.behind _)
  | point _ hx _ hy _ => simpa using grown_enclosed (hx.append (.skip hy)) rfl
  | list _ hrest => exact grown_of_list hrest .nil
  | conditional _ hcond harms _ => exact grown_enclosed (row_of_arms harms hcond) rfl

end Forms

section Stacks

/-- A waiting operator takes as many operands as it was put on its stack with. -/
def Pending.Shaped (p : Pending) : Prop :=
  0 < p.count ∧ p.op.takes p.count = true

/-- All operators wait for as many operands as they take, and the operands stand in a row. -/
structure Stacks.Grown (ts : List Token) (s : Stacks) : Prop where
  operators : ∀ p ∈ s.operators, p.Shaped
  operands : Row Grows ts s.operands.reverse

variable {operands : List Expr} {op : Operation} {ps : List Pending} {s : Stacks} {b : Bool}
  {ts us : List Token}

theorem Stacks.Grown.push {e : Expr} (h : s.Grown us) (he : Parser.Grown ts e) :
    (s.push e).Grown (us ++ ts) :=
  ⟨h.operators, by simpa [Stacks.push] using h.operands.append he⟩

theorem row_reduce {p : Pending} (hp : p.Shaped) (hcount : p.count ≤ operands.length)
    (h : Row Grows ts operands.reverse) :
    Row Grows ts (Expr.apply p.op (operands.take p.count).reverse ::
      operands.drop p.count).reverse := by
  have hlength : (operands.take p.count).reverse.length = p.count := by
    rw [length_reverse, length_take]
    omega
  rw [reverse_cons]
  refine Row.group ?_ ?_ (by rw [hlength]; exact hp.2)
  · rw [← reverse_append, take_append_drop]
    exact h
  · -- Without operands there would be no place for the result.
    have hpos := hp.1
    exact ne_nil_of_length_pos (by omega)

theorem grown_of_settles (h : Settles op ps operands s) (hs : Stacks.Grown ts ⟨ps, operands⟩) :
    s.Grown ts := by
  induction h with
  | empty | stop _ => exact hs
  | take _ hcount _ ih =>
    obtain ⟨hp, hps⟩ := forall_mem_cons.1 hs.operators
    exact ih ⟨hps, row_reduce hp hcount hs.operands⟩

theorem row_of_collapses {result : List Expr} (h : Collapses ps operands result)
    (hs : Stacks.Grown ts ⟨ps, operands⟩) : Row Grows ts result.reverse := by
  induction h with
  | done => exact hs.operands
  | take hcount _ ih =>
    obtain ⟨hp, hps⟩ := forall_mem_cons.1 hs.operators
    exact ih ⟨hps, row_reduce hp hcount hs.operands⟩

/-- An operator is put on its stack with as many operands as it takes. -/
theorem shaped_pending {l : Lexeme} (h : ofLexeme? l b = some op) :
    Pending.Shaped ⟨op, operandCount op⟩ := by
  cases l with
  | symbol s =>
    cases s <;> cases b <;> simp [ofLexeme?, ofSymbol] at h <;> subst h <;>
      exact ⟨by decide, rfl⟩
  | keyword k =>
    cases k <;> cases b <;> simp [ofLexeme?, ofKeyword] at h <;> subst h <;>
      exact ⟨by decide, rfl⟩
  | _ => simp [ofLexeme?] at h

/-- The operand on top of the stack and those behind it become one operation at once. -/
theorem Stacks.Grown.take {f : Expr} {args : List Expr} (hs : Stacks.Grown us ⟨ps, f :: operands⟩)
    (hargs : Row Grows ts args) (htakes : op.takes (f :: args).length) :
    Stacks.Grown (us ++ ts) ⟨ps, Expr.apply op (f :: args) :: operands⟩ := by
  refine ⟨hs.operators, ?_⟩
  rw [reverse_cons]
  refine Row.group ?_ (by simp) htakes
  simpa using hs.operands.append hargs

theorem grown_turn {s' : Stacks} {b' : Bool} (h : Turn Grown s b ts s' b') (hs : s.Grown us) :
    s'.Grown (us ++ ts) := by
  cases h with
  | operand hoperand => exact hs.push (.one (.leaf hoperand))
  | form hform => exact hs.push (grown_of_form hform)
  | operator hop _ hsettles =>
    have hsettled := grown_of_settles hsettles hs
    exact ⟨by simpa using ⟨shaped_pending hop, hsettled.operators⟩, hsettled.operands.behind _⟩
  | call _ hsettles hargs _ =>
    exact (grown_of_settles hsettles hs).take (.skip ((row_of_args hargs).behind _))
      (by simp [takes])
  | actionCall _ hname _ hsettles hargs _ =>
    have hcallee : Grows [_] (Expr.reference _ _) := .leaf (by rw [operand?, hname])
    refine (grown_of_settles hsettles hs).push (.skip (grown_apply ?_ (by simp) ?_))
    · simpa using (Row.one hcallee).append (.skip ((row_of_args hargs).behind _))
    · simp [takes]
  | index _ hsettles hnumber _ =>
    exact (grown_of_settles hsettles hs).take (.skip (hnumber.behind _)) rfl

theorem grown_of_reading {e : Expr} (h : Reading Grown s b ts e) (hs : s.Grown us) :
    Grown (us ++ ts) e := by
  induction h generalizing us with
  | finish hrest => exact (row_of_collapses hrest hs).behind []
  | turn hturn _ ih => simpa using ih (grown_turn hturn hs)

end Stacks

theorem expr_grown : Follows expr Grown := by
  have hempty : Stacks.empty.Grown [] := ⟨by simp [Stacks.empty], .nil⟩
  intro ends ts last d e h
  exact expr_follows (P := Grown) (fun ts e hread => grown_of_reading hread hempty) h

theorem expr_shaped : Follows expr fun ts e => ts ⊆ tokens → e.Shaped tokens := by
  intro ends ts last d e h
  obtain ⟨us, t, rest, hts, hd, ht, hgrown⟩ := expr_grown h
  refine ⟨us, t, rest, hts, hd, ht, fun hus => ?_⟩
  exact (hgrown.mono Grows.shaped).forall_mem hus e (mem_singleton_self e)

end Parser

end Diagram
