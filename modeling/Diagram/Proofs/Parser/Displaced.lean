import Diagram.Proofs.Parser.Returned

/-!
# Where an access takes a foreign operand

The trail of some words, and that of an expression, keeps of every operator only whether it is
an access.  Words that write an expression have its trail.  When an operator follows an access,
the access takes its operands before they are all there, and its mark comes to stand before that
of a waiting operator: the trail of what is read is then later in lexical order.

Main statements: `traced_of_reading`, `spelling_iff_clashless`.
-/

namespace Diagram

open List Lexeme Expr

namespace Operation

/-- The mark of an operation that is written with a word before or between its operands: whether
it is an access. -/
def mark? (op : Operation) : Option Bool :=
  if op.isOpen then some (op.precedence == .access) else none

end Operation

namespace Lexeme

/-- The mark of a word that writes an operator. -/
def mark? : Lexeme → Option Bool
  | symbol .dot | symbol .atSign => some true
  | symbol .plus | symbol .minus | symbol .bang | symbol .star | symbol .slash | symbol .percent
  | symbol .caret | symbol .star2 | symbol .ampersand2 | symbol .pipe2 | symbol .equal2
  | symbol .notEqual | symbol .lessThan | symbol .greaterThan | symbol .lessEqual
  | symbol .greaterEqual | symbol .equal | symbol .colonEqual => some false
  | keyword .withBinding => some false
  | _ => none

variable {op : Operation} {w : Lexeme}

theorem mark?_of_unaryWord? (h : op.unaryWord? = some w) :
    ∃ m, w.mark? = some m ∧ op.mark? = some m := by
  cases op <;> simp [Operation.unaryWord?] at h <;> subst h <;> exact ⟨_, rfl, rfl⟩

theorem mark?_of_mem_binaryWords (h : w ∈ op.binaryWords) :
    ∃ m, w.mark? = some m ∧ op.mark? = some m := by
  cases op <;> simp [Operation.binaryWords] at h <;>
    first
      | (exact ⟨_, rfl, rfl⟩)
      | (rcases h with rfl | rfl <;> exact ⟨_, rfl, rfl⟩)

theorem isAccess_eq (l : Lexeme) : l.isAccess = (l.mark? == some true) := by
  cases l with
  | symbol s | keyword s => cases s <;> rfl
  | _ => rfl

/-- A word that separates or encloses expressions. -/
def separates (l : Lexeme) : Bool :=
  l.mark? == none && !l.opensOperator

end Lexeme

def marks (ls : List Lexeme) : List Bool :=
  ls.filterMap mark?

@[simp] theorem marks_nil : marks [] = [] := rfl

@[simp] theorem marks_append (ls ls' : List Lexeme) : marks (ls ++ ls') = marks ls ++ marks ls' :=
  filterMap_append

@[simp] theorem marks_cons (l : Lexeme) (ls : List Lexeme) :
    marks (l :: ls) = l.mark?.toList ++ marks ls := by
  unfold marks
  cases h : l.mark? with
  | none | some m => simp [h]

/-- The mark of an operation among the trails of its operands. -/
def weave : Option Bool → List (List Bool) → List Bool
  | some m, [t] => m :: t
  | some m, t :: ts => t ++ m :: ts.flatten
  | _, ts => ts.flatten

namespace Expr

mutual

/-- The marks of the operations of an expression, in the order in which they are written. -/
def trail : Expr → List Bool
  | operator _ op operands => weave op.mark? (trails operands)
  | _ => []

def trails : List Expr → List (List Bool)
  | [] => []
  | e :: es => e.trail :: trails es

end

theorem trails_eq_map (es : List Expr) : trails es = es.map trail := by
  induction es with
  | nil => rfl
  | cons e es ih => rw [trails, ih, map_cons]

@[simp] theorem trail_operator (info : Info) (op : Operation) (es : List Expr) :
    (operator info op es).trail = weave op.mark? (es.map trail) := by
  rw [trail, trails_eq_map]

@[simp] theorem trail_apply (op : Operation) (es : List Expr) :
    (apply op es).trail = weave op.mark? (es.map trail) :=
  trail_operator _ op es

@[simp] theorem trail_withArea (e : Expr) (area : Area) : (e.withArea area).trail = e.trail := by
  cases e with
  | operator info op es => simp [withArea, withInfo]
  | _ => rfl

end Expr

def trailOf (es : List Expr) : List Bool :=
  (es.map trail).flatten

variable {op : Operation}

@[simp] theorem trailOf_nil : trailOf [] = [] := rfl

@[simp] theorem trailOf_cons (e : Expr) (es : List Expr) :
    trailOf (e :: es) = e.trail ++ trailOf es := rfl

@[simp] theorem trailOf_append (es es' : List Expr) :
    trailOf (es ++ es') = trailOf es ++ trailOf es' := by
  simp [trailOf]

theorem trail_of_mark?_eq_none {info : Info} (h : op.mark? = none) (es : List Expr) :
    (operator info op es).trail = trailOf es := by
  rw [trail_operator, h, weave]
  · rfl
  · simp
  · simp

theorem mark?_of_rangeWord? {w : Lexeme} (h : op.rangeWord? = some w) :
    w.mark? = none ∧ op.mark? = none := by
  cases op <;> simp [Operation.rangeWord?] at h <;> subst h <;> exact ⟨rfl, rfl⟩

section Written

variable {fits : Operation → Side → Option Operation → Prop}

mutual

theorem Writing.marks_eq {e o ls} : Writing fits e o ls → marks ls = e.trail
  | @Writing.literal _ _ v _ hv => by
    cases v <;> simp [Value.lexeme?] at hv <;> subst hv <;> rfl
  | .name => rfl
  | .group he => by simp [mark?, he.marks_eq]
  | .unary hw he _ => by
    obtain ⟨m, hword, hop⟩ := mark?_of_unaryWord? hw
    simp [hword, he.marks_eq, hop, weave]
  | .binary hw he₁ _ he₂ _ => by
    obtain ⟨m, hword, hop⟩ := mark?_of_mem_binaryWords hw
    simp [hword, he₁.marks_eq, he₂.marks_eq, hop, weave]
  | .call hf _ hargs => by
    rw [trail_of_mark?_eq_none rfl]
    simp [mark?, hf.marks_eq, items_marks_eq hargs]
  | .actionCall hargs => by
    rw [trail_of_mark?_eq_none rfl]
    simp [mark?, items_marks_eq hargs, trail]
  | .index he _ hi => by
    rw [trail_of_mark?_eq_none rfl]
    simp [mark?, he.marks_eq, hi.marks_eq]
  | .point hx hy => by
    rw [trail_of_mark?_eq_none rfl]
    simp [mark?, hx.marks_eq, hy.marks_eq]
  | .list hes => by
    rw [trail_of_mark?_eq_none rfl]
    simp [mark?, items_marks_eq hes]
  | .fill he hn => by
    rw [trail_of_mark?_eq_none rfl]
    simp [mark?, he.marks_eq, hn.marks_eq]
  | .range hw hes he => by
    obtain ⟨hword, hop⟩ := mark?_of_rangeWord? hw
    have hleft : (symbol .squareLeft).mark? = none := rfl
    have hright : (symbol .squareRight).mark? = none := rfl
    rw [trail_of_mark?_eq_none hop]
    simp [hleft, hword, hright, commas_marks_eq hes, he.marks_eq]
  | .map he => by simp [mark?, clauses_marks_eq he]
  | .filter he hcond => by
    rw [trail_of_mark?_eq_none rfl]
    simp [mark?, he.marks_eq, hcond.marks_eq]
  | .mapFilter he hcond => by
    rw [trail_of_mark?_eq_none rfl]
    simp [mark?, clauses_marks_eq he, hcond.marks_eq]
  | .conditional hes hcomma => by
    rw [trail_of_mark?_eq_none rfl]
    rcases hcomma with rfl | rfl <;> simp [mark?, branches_marks_eq hes]

theorem items_marks_eq {es ls} : Items (Writing fits) es ls → marks ls = trailOf es
  | .none => rfl
  | .plain hes => commas_marks_eq hes
  | .trailing hes => by simp [mark?, commas_marks_eq hes]

theorem commas_marks_eq {es ls} : Commas (Writing fits) es ls → marks ls = trailOf es
  | .one he => by simp [he.marks_eq]
  | .cons he hes => by simp [mark?, he.marks_eq, commas_marks_eq hes]

theorem clauses_marks_eq {e ls} : Clauses (Writing fits) e ls → marks ls = e.trail
  | .first he hbound hsource => by
    rw [trail_of_mark?_eq_none rfl]
    simp [mark?, he.marks_eq, hbound.marks_eq, hsource.marks_eq]
  | .next he hbound hsource => by
    rw [trail_of_mark?_eq_none rfl]
    simp [mark?, clauses_marks_eq he, hbound.marks_eq, hsource.marks_eq]

theorem arms_marks_eq {es ls} : Arms (Writing fits) es ls → marks ls = trailOf es
  | .one hcond hvalue => by simp [mark?, hcond.marks_eq, hvalue.marks_eq]
  | .cons hcond hvalue hes => by
    simp [mark?, hcond.marks_eq, hvalue.marks_eq, arms_marks_eq hes]

theorem branches_marks_eq {es ls} : Branches (Writing fits) es ls → marks ls = trailOf es
  | .plain hes => arms_marks_eq hes
  | .default hes he => by simp [mark?, arms_marks_eq hes, he.marks_eq]

end

end Written

/-- At the first place where two trails of one length differ, an access stands only in the
second. -/
inductive Rises : List Bool → List Bool → Prop
  | here {xs ys} (hlength : xs.length = ys.length) : Rises (false :: xs) (true :: ys)
  | there {b xs ys} (hrest : Rises xs ys) : Rises (b :: xs) (b :: ys)

namespace Rises

variable {xs ys zs : List Bool}

variable (h : Rises xs ys)

include h

theorem length_eq : xs.length = ys.length := by
  induction h with
  | here hlength | there _ hlength => simp [hlength]

theorem ne : xs ≠ ys := by
  induction h with
  | here => simp
  | there _ ih => simpa using ih

theorem trans (h' : Rises ys zs) : Rises xs zs := by
  induction h generalizing zs with
  | here hlength =>
    cases h' with
    | there hrest => exact .here (hlength.trans hrest.length_eq)
  | there hrest ih =>
    cases h' with
    | here hlength => exact .here (hrest.length_eq.trans hlength)
    | there hrest' => exact .there (ih hrest')

theorem append_left (ps : List Bool) : Rises (ps ++ xs) (ps ++ ys) := by
  induction ps with
  | nil => exact h
  | cons p ps ih => exact .there ih

variable {us vs : List Bool}

theorem append_right (hlength : us.length = vs.length) : Rises (xs ++ us) (ys ++ vs) := by
  induction h with
  | here hrest => exact .here (by simp [hrest, hlength])
  | there _ ih => exact .there ih

omit h

/-- A mark of an access that moves before others, of which one is no access. -/
theorem of_mark_first (hlength : us.length = vs.length + 1) :
    Rises (xs ++ false :: us) (true :: xs ++ false :: vs) := by
  induction xs with
  | nil => exact .here (by simp [hlength])
  | cons x xs ih =>
    cases x with
    | false => exact .here (by simp [hlength, Nat.add_assoc])
    | true => exact .there ih

end Rises

/-- Words with no clash have a certain trail; where there is one, the trail rises above
theirs. -/
def Traced (ls : List Lexeme) (bs : List Bool) : Prop :=
  (marks ls = bs ∧ Clashless ls) ∨ Rises (marks ls) bs

namespace Traced

variable {ls ls' : List Lexeme} {bs bs' : List Bool} {l w : Lexeme}

theorem length_eq (h : Traced ls bs) : (marks ls).length = bs.length := by
  rcases h with ⟨rfl, -⟩ | h
  · rfl
  · exact h.length_eq

theorem nil : Traced [] [] :=
  .inl ⟨rfl, .nil⟩

theorem singleton (w : Lexeme) : Traced [w] w.mark?.toList :=
  .inl ⟨by simp, .singleton _⟩

theorem append (h : Traced ls bs) (h' : Traced ls' bs')
    (hjoin : ∀ l ∈ ls.getLast?, ∀ l' ∈ ls'.head?, l.clash l' = false) :
    Traced (ls ++ ls') (bs ++ bs') := by
  have hlength := h'.length_eq
  unfold Traced
  rw [marks_append]
  rcases h with ⟨rfl, hclash⟩ | h
  · rcases h' with ⟨rfl, hclash'⟩ | h'
    · exact .inl ⟨rfl, List.IsChain.append hclash hclash' hjoin⟩
    · exact .inr (h'.append_left _)
  · exact .inr (h.append_right hlength)

theorem join (h : Traced ls bs) (hl : l = w) (h' : Traced ls' bs')
    (hw : w.separates) : Traced (ls ++ l :: ls') (bs ++ bs') := by
  subst hl
  simp only [separates, Bool.and_eq_true, beq_iff_eq, Bool.not_eq_true'] at hw
  have hsingle : Traced [l] [] := by simpa [hw.1] using singleton l
  have hright : Traced (l :: ls') bs' := by
    refine hsingle.append h' ?_
    simp [clash, isAccess_eq, hw.1]
  refine h.append hright ?_
  simp [clash, hw.2]

theorem cons (hl : l = w) (h : Traced ls bs) (hw : w.separates) : Traced (l :: ls) bs :=
  nil.join hl h hw

theorem snoc (h : Traced ls bs) (hl : l = w) (hw : w.separates) : Traced (ls ++ [l]) bs := by
  simpa using h.join hl nil hw

end Traced

namespace Parser

/-- The trail of what is read, from the words of the tokens. -/
def Traces (ts : List Token) (e : Expr) : Prop :=
  Traced (words ts) e.trail

@[simp] theorem trail_enclosed (opener closer : Token) (e : Expr) :
    (enclosed opener closer e).trail = e.trail :=
  trail_withArea e _

variable {op : Operation} (hop : op.mark? = none) (es : List Expr)

include hop

theorem trail_apply_of_mark?_eq_none : (apply op es).trail = trailOf es :=
  trail_of_mark?_eq_none hop es

theorem trail_enclosed_apply (opener closer : Token) :
    (enclosed opener closer (.apply op es)).trail = trailOf es := by
  rw [trail_enclosed, trail_apply_of_mark?_eq_none hop]

omit hop

section Forms

variable {ts us : List Token} {ls : List Lexeme} {e e' : Expr} {es : List Expr} {w : Lexeme}

theorem traced_args (h : ArgsReading Traces ts es) : Traced (words ts) (trailOf es) := by
  induction h with
  | nil => exact .nil
  | last harg => simpa [Traces] using harg
  | cons harg hcomma _ ih =>
    rw [words_append]
    exact harg.join hcomma ih rfl

theorem traced_clauses (h : ClausesReading Traces e us e') (he : Traced ls e.trail) :
    Traced (ls ++ words us) e'.trail := by
  induction h generalizing ls with
  | done => simpa using he
  | @next ts us vs first second e bound source _ hfor hbound hin hsource _ ih =>
    have hmap : Traced (ls ++ first.lexeme :: (words ts ++ second.lexeme :: words us))
        (apply .listMap [e, bound, source]).trail := by
      rw [trail_apply_of_mark?_eq_none rfl]
      simpa using he.join hfor (hbound.join hin hsource rfl) rfl
    simpa using ih hmap

theorem traced_list {opener : Token} {items : List Expr}
    (h : ListReading Traces opener items ts e) (hitems : Traced ls (trailOf items))
    (hw : w.separates) : Traced (ls ++ w :: words ts) e.trail := by
  induction h generalizing ls w with
  | close hclose =>
    rw [trail_enclosed_apply rfl]
    simpa using hitems.join rfl (.cons hclose .nil rfl) hw
  | last hitem hclose =>
    rw [trail_enclosed_apply rfl]
    simpa using hitems.join rfl (hitem.snoc hclose rfl) hw
  | next hitem hcomma _ ih =>
    have hrest := ih (w := .symbol .comma) (by simpa using hitems.join rfl hitem hw) rfl
    simpa [hcomma] using hrest
  | fill hitem hsemicolon hcount hclose =>
    rw [trail_enclosed_apply rfl]
    simpa using (hitems.join rfl hitem hw).join hsemicolon (hcount.snoc hclose rfl) rfl
  | filter hitem hwhere hcond hclose =>
    rw [trail_enclosed_apply rfl]
    simpa using (hitems.join rfl hitem hw).join hwhere (hcond.snoc hclose rfl) rfl
  | map hitem hfor hclauses hclose =>
    simpa using hitems.join rfl ((traced_clauses hclauses hitem).snoc hclose rfl) hw
  | mapFilter hitem hfor hclauses hwhere hcond hclose =>
    rw [trail_enclosed_apply rfl]
    have hmap := (traced_clauses hclauses hitem).join hwhere (hcond.snoc hclose rfl) rfl
    simpa using hitems.join rfl hmap hw
  | range hop hitem hdots hlast hclose =>
    rcases hop with ⟨rfl, rfl⟩ | ⟨rfl, rfl⟩
    · rw [trail_enclosed_apply rfl]
      simpa using (hitems.join rfl hitem hw).join hdots (hlast.snoc hclose rfl) rfl
    · rw [trail_enclosed_apply rfl]
      simpa using (hitems.join rfl hitem hw).join hdots (hlast.snoc hclose rfl) rfl

theorem traced_arms {operands result : List Expr} (h : ArmsReading Traces operands ts result)
    (hbefore : Traced ls (trailOf operands)) : Traced (ls ++ words ts) (trailOf result) := by
  induction h generalizing ls with
  | value hcolon hvalue => simpa using hbefore.join hcolon hvalue rfl
  | valueComma hcolon hvalue hcomma =>
    simpa using hbefore.join hcolon (hvalue.snoc hcomma rfl) rfl
  | default hcolon hvalue hcomma hother =>
    simpa using hbefore.join hcolon (hvalue.join hcomma hother rfl) rfl
  | defaultComma hcolon hvalue hcomma hother hcomma' =>
    simpa using hbefore.join hcolon (hvalue.join hcomma (hother.snoc hcomma' rfl) rfl) rfl
  | next hcolon hvalue hcomma hcond _ ih =>
    have hrest := ih (by simpa using hbefore.join hcolon (hvalue.join hcomma hcond rfl) rfl)
    simpa using hrest

theorem traced_form (h : FormReading Traces ts e) : Traced (words ts) e.trail := by
  cases h with
  | group hopen hcontent hclose =>
    simpa using Traced.cons hopen (hcontent.snoc hclose rfl) rfl
  | point hopen hx hcomma hy hclose =>
    rw [trail_enclosed_apply rfl]
    simpa using Traced.cons hopen ((hx.join hcomma hy rfl).snoc hclose rfl) rfl
  | list hopen hrest =>
    simpa [hopen] using traced_list hrest .nil (w := .symbol .squareLeft) rfl
  | conditional hopen hcond harms hclose =>
    rw [trail_enclosed_apply rfl]
    have hrest := traced_arms harms (by simpa using Traced.cons hopen hcond rfl)
    simpa using hrest.snoc hclose rfl

end Forms

section Stacks

variable {s s' : Stacks} {ps : List Pending} {os : List Expr} {ls : List Lexeme} {bs : List Bool}
  {e : Expr} {op : Operation}

/-- The top of the waiting operators is no access. -/
def Low (ps : List Pending) : Prop :=
  ∀ p ∈ ps.head?, p.op.precedence ≠ .access

/-- The trail of the waiting operators with their left operands.  Only the last of them can be an
access. -/
inductive Laid : List Pending → List Expr → List Bool → Prop
  | nil : Laid [] [] []
  | unary {ps os bs op m} (hm : op.mark? = some m) (hlow : Low ps) (hrest : Laid ps os bs) :
      Laid (⟨op, 1⟩ :: ps) os (bs ++ [m])
  | binary {ps os bs op m e} (hm : op.mark? = some m) (hlow : Low ps) (hrest : Laid ps os bs) :
      Laid (⟨op, 2⟩ :: ps) (e :: os) (bs ++ e.trail ++ [m])

/-- The trail of what the stacks hold behind an operand. -/
inductive LaidTop : Stacks → List Bool → Prop
  | intro {ps : List Pending} {os : List Expr} {bs : List Bool} {e : Expr} (hrest : Laid ps os bs) :
      LaidTop ⟨ps, e :: os⟩ (bs ++ e.trail)

theorem laidTop_take {p : Pending} (hrest : Laid (p :: ps) os bs) :
    LaidTop ⟨ps, apply p.op ((e :: os).take p.count).reverse :: (e :: os).drop p.count⟩
      (bs ++ e.trail) := by
  cases hrest with
  | @unary _ _ bs op m hm _ hrest =>
    have htrail : (apply op [e]).trail = m :: e.trail := by simp [hm, weave]
    have htop := LaidTop.intro (e := apply op [e]) hrest
    rw [htrail] at htop
    simpa using htop
  | @binary _ os bs op m e₁ hm _ hrest =>
    have htrail : (apply op [e₁, e]).trail = e₁.trail ++ m :: e.trail := by simp [hm, weave]
    have htop := LaidTop.intro (e := apply op [e₁, e]) hrest
    rw [htrail] at htop
    simpa using htop

variable {operands : List Expr} {w : Lexeme} {b : Bool} {t opener : Token} {ts : List Token}

theorem LaidTop.settles (h : Settles op ps operands s) (htop : LaidTop ⟨ps, operands⟩ bs) :
    LaidTop s bs := by
  induction h with
  | empty | stop => exact htop
  | take _ _ _ ih =>
    cases htop with
    | intro hrest => exact ih (laidTop_take hrest)

theorem LaidTop.collapses (h : Collapses ps operands [e]) (htop : LaidTop ⟨ps, operands⟩ bs) :
    bs = e.trail := by
  generalize hresult : [e] = result at h
  induction h with
  | done =>
    subst hresult
    cases htop with
    | intro hrest =>
      cases hrest
      rfl
  | take _ _ ih =>
    cases htop with
    | intro hrest => exact ih (laidTop_take hrest) hresult

theorem low_of_settles (h : Settles op ps operands s) (hop : op.precedence.level ≤ 10) :
    Low s.operators := by
  induction h with
  | empty => simp [Low]
  | stop hnot =>
    intro q hq haccess
    obtain rfl := Option.mem_some.1 hq
    simp [Operation.precedes_of_access haccess hop] at hnot
  | take _ _ _ ih => exact ih

theorem mark?_eq_some_iff {m : Bool} :
    op.mark? = some m ↔ op.isOpen ∧ (op.precedence == .access) = m := by
  unfold Operation.mark?
  split <;> simp [*]

/-- The operand that was put down last stands right before an operator that is no access, and
may be another. -/
theorem Laid.replace {x : Expr} (hlow : Low ps) (h : Laid ps (x :: os) bs) :
    ∃ before behind, bs = before ++ x.trail ++ false :: behind ∧
      ∀ y, Laid ps (y :: os) (before ++ y.trail ++ false :: behind) := by
  generalize hos : x :: os = operands at h
  induction h with
  | nil => cases hos
  | @unary _ _ _ op m hm hlow' _ ih =>
    obtain ⟨before, behind, rfl, hrest⟩ := ih hlow' hos
    refine ⟨before, behind ++ [m], by simp, fun y => ?_⟩
    simpa using Laid.unary hm hlow' (hrest y)
  | @binary _ _ bs op m _ hm hlow' hrest _ =>
    cases hos
    have hfalse : m = false := by
      rw [← (mark?_eq_some_iff.1 hm).2, beq_eq_false_iff_ne]
      exact hlow _ rfl
    subst hfalse
    exact ⟨bs, [], by simp, fun y => .binary hm hlow' hrest⟩

/-- Below an access, no operator goes before one that stands before its operand. -/
theorem settles_of_low (h : Laid ps os bs) (hlow : Low ps) (hop : 8 ≤ op.precedence.level)
    (hsettles : Settles op ps operands s) : s = ⟨ps, operands⟩ := by
  cases hsettles with
  | empty | stop => rfl
  | take hprecedes _ _ =>
    exfalso
    cases h with
    | unary hm _ _ | binary hm _ _ =>
      exact hlow _ rfl (Operation.access_of_precedes (mark?_eq_some_iff.1 hm).1 hop hprecedes)

/-- Before an operator that stands before its operand, either nothing happens, or an access takes
its operands too early. -/
theorem Laid.settles (h : Laid ps os bs) (hop : 8 ≤ op.precedence.level)
    (hsettles : Settles op ps os s) :
    s = ⟨ps, os⟩ ∨ ∃ bs', Laid s.operators s.operands bs' ∧ Rises bs bs' := by
  cases hsettles with
  | empty | stop => exact .inl rfl
  | take hprecedes hcount hsettles =>
    right
    cases h with
    | @unary _ _ bs q m hm hlow hrest =>
      obtain ⟨hopen, rfl⟩ := mark?_eq_some_iff.1 hm
      rw [Operation.access_of_precedes hopen hop hprecedes] at hm ⊢
      -- The operand that it takes is the left one of a waiting operator.
      obtain ⟨x, os, rfl⟩ := exists_cons_of_length_pos hcount
      obtain ⟨before, behind, rfl, hreplace⟩ := hrest.replace hlow
      obtain rfl := settles_of_low (hreplace x) hlow hop hsettles
      refine ⟨_, hreplace (apply q [x]), ?_⟩
      have htrail : (apply q [x]).trail = true :: x.trail := by simp [hm, weave]
      rw [htrail]
      have hrise : Rises (x.trail ++ false :: (behind ++ [true]))
          (true :: x.trail ++ false :: behind) := .of_mark_first (by simp)
      simpa using hrise.append_left before
    | @binary _ os bs q m a hm hlow hrest =>
      obtain ⟨hopen, rfl⟩ := mark?_eq_some_iff.1 hm
      rw [Operation.access_of_precedes hopen hop hprecedes] at hm ⊢
      obtain ⟨x, os, rfl⟩ := exists_cons_of_length_pos (Nat.le_of_succ_le_succ hcount)
      obtain ⟨before, behind, rfl, hreplace⟩ := hrest.replace hlow
      obtain rfl := settles_of_low (hreplace x) hlow hop hsettles
      refine ⟨_, hreplace (apply q [x, a]), ?_⟩
      have htrail : (apply q [x, a]).trail = x.trail ++ true :: a.trail := by
        simp [hm, weave]
      rw [htrail]
      have hrise : Rises (false :: (behind ++ a.trail ++ [true]))
          (true :: (a.trail ++ false :: behind)) := .here (by simp; omega)
      simpa using hrise.append_left (before ++ x.trail)

/-- The trail of what the stacks hold, from the words taken so far.  Behind an operand they do not
end with an access; elsewhere they do only if one waits on top. -/
def Tracks (s : Stacks) (ls : List Lexeme) : (expectOperand : Bool) → Prop
  | true => ∃ bs, Laid s.operators s.operands bs ∧ Traced ls bs ∧
      ∀ l ∈ ls.getLast?, l.isAccess = true → ¬ Low s.operators
  | false => ∃ bs, LaidTop s bs ∧ Traced ls bs ∧ ∀ l ∈ ls.getLast?, l.isAccess = false

theorem level_le_ten_of_ofLexeme? (h : Operation.ofLexeme? w b = some op) :
    op.precedence.level ≤ 10 := by
  cases w with
  | symbol s =>
    cases s <;> cases b <;> simp [Operation.ofLexeme?, Operation.ofSymbol] at h <;> subst h <;>
      decide
  | keyword k =>
    cases k <;> cases b <;> simp [Operation.ofLexeme?, Operation.ofKeyword] at h <;> subst h <;>
      decide
  | _ => simp [Operation.ofLexeme?] at h

/-- The word of an operator that stands before its operand clashes with the words before it only
if an access takes its operands for it. -/
theorem tracks_settles (hs : Tracks s ls true) (hop : Operation.ofLexeme? w true = some op)
    (hsettles : Settles op s.operators s.operands s') :
    ∃ bs, Laid s'.operators s'.operands bs ∧ Low s'.operators ∧
      Traced (ls ++ [w]) (bs ++ w.mark?.toList) := by
  obtain ⟨bs, hlaid, htraced, hlast⟩ := hs
  have hlow := low_of_settles hsettles (level_le_ten_of_ofLexeme? hop)
  rcases hlaid.settles (opensOperator_of_ofLexeme? hop).2 hsettles with rfl | ⟨bs', hlaid', hrise⟩
  · refine ⟨bs, hlaid, hlow, htraced.append (.singleton w) ?_⟩
    intro l hl l' _
    have hnot : l.isAccess = false := by
      rw [Bool.eq_false_iff]
      exact fun haccess => hlast l hl haccess hlow
    simp [clash, hnot]
  · refine ⟨bs', hlaid', hlow, .inr ?_⟩
    have hword : marks [w] = w.mark?.toList := by simp
    rw [marks_append]
    rcases htraced with ⟨rfl, -⟩ | htraced
    · exact hrise.append_right rfl
    · exact (htraced.trans hrise).append_right rfl

theorem tracks_operand (h : operand? t = some e) (hs : Tracks s ls true) :
    Tracks (s.push e) (ls ++ words [t]) false := by
  obtain ⟨bs, hlaid, htraced, -⟩ := hs
  have hseparates : t.lexeme.separates = true ∧ t.lexeme.isAccess = false ∧ e.trail = [] := by
    unfold operand? at h
    split at h <;> cases h <;> simp only [*] <;> exact ⟨rfl, rfl, rfl⟩
  obtain ⟨hword, haccess, htrail⟩ := hseparates
  refine ⟨bs ++ e.trail, .intro hlaid, ?_, by simp [haccess]⟩
  rw [htrail, append_nil]
  exact htraced.snoc rfl hword

theorem not_access_of_last (ls : List Lexeme) (ts : List Token) (ht : t.lexeme.isAccess = false) :
    ∀ l ∈ (ls ++ words (ts ++ [t])).getLast?, l.isAccess = false := by
  rw [words_append, ← append_assoc, words_cons, words_nil, getLast?_concat]
  intro l hl
  obtain rfl := Option.mem_some.1 hl
  exact ht

variable {N : List Token → Expr → Prop}

theorem ListReading.ends {items : List Expr} (h : ListReading N opener items ts e) :
    ∃ us closer, ts = us ++ [closer] ∧ closer.lexeme = .symbol .squareRight := by
  induction h with
  | close hclose => exact ⟨[], _, rfl, hclose⟩
  | @next _ ts _ comma _ _ _ _ _ ih =>
    obtain ⟨us, closer, rfl, hclose⟩ := ih
    exact ⟨ts ++ comma :: us, closer, by simp, hclose⟩
  | last _ hclose | fill _ _ _ hclose | filter _ _ _ hclose | map _ _ _ hclose
  | mapFilter _ _ _ _ _ hclose | range _ _ _ _ hclose => exact ⟨_, _, rfl, hclose⟩

theorem FormReading.ends {ts : List Token} (h : FormReading N ts e) :
    ∃ us closer, ts = us ++ [closer] ∧ closer.lexeme.isAccess = false := by
  cases h with
  | group _ _ hclose | point _ _ _ _ hclose | conditional _ _ _ hclose =>
    exact ⟨_, _, rfl, by rw [hclose]; rfl⟩
  | list _ hrest =>
    obtain ⟨us, closer, rfl, hclose⟩ := hrest.ends
    exact ⟨_ :: us, closer, rfl, by rw [hclose]; rfl⟩

theorem tracks_form (h : FormReading Traces ts e) (hs : Tracks s ls true) :
    Tracks (s.push e) (ls ++ words ts) false := by
  obtain ⟨bs, hlaid, htraced, -⟩ := hs
  refine ⟨bs ++ e.trail, .intro hlaid, htraced.append (traced_form h) ?_, ?_⟩
  · obtain ⟨t, us, rfl, ht⟩ := h.head
    intro l _ l' hl'
    obtain rfl : t.lexeme = l' := by simpa using hl'
    rcases ht with ht | ht | ht <;> simp [clash, ht, opensOperator]
  · obtain ⟨us, closer, rfl, hclose⟩ := h.ends
    exact not_access_of_last ls us hclose

/-- A call or an index takes the operand before it. -/
theorem tracks_suffix {closer : Token} {f : Expr} {args : List Expr} (hs : Tracks s ls false)
    (hsettles : Settles op s.operators s.operands ⟨ps, f :: os⟩)
    (hargs : Traced (words ts) (trailOf args)) (hmark : op.mark? = none)
    (hopen : opener.lexeme.separates) (hclose : closer.lexeme.separates) :
    Tracks ⟨ps, apply op (f :: args) :: os⟩ (ls ++ words (opener :: ts ++ [closer])) false := by
  obtain ⟨bs, htop, htraced, -⟩ := hs
  cases htop.settles hsettles with
  | @intro _ _ bs _ hlaid =>
    refine ⟨_, .intro hlaid, ?_, ?_⟩
    · rw [trail_apply_of_mark?_eq_none hmark]
      simpa using htraced.join rfl (hargs.snoc rfl hclose) hopen
    · have haccess : closer.lexeme.isAccess = false := by
        simp only [separates, Bool.and_eq_true, beq_iff_eq] at hclose
        simp [isAccess_eq, hclose.1]
      exact not_access_of_last ls (opener :: ts) haccess

theorem tracks_turn {b' : Bool} (h : Turn Traces s b ts s' b') (hs : Tracks s ls b) :
    Tracks s' (ls ++ words ts) b' := by
  cases h with
  | operand hoperand => exact tracks_operand hoperand hs
  | form hform => exact tracks_form hform hs
  | @operator s₁ _ t op hop hwaits hsettles =>
    have hlow := low_of_settles hsettles (level_le_ten_of_ofLexeme? hop)
    -- The operator is an access if its word is.
    have hpushed {m : Bool} (hword : t.lexeme.mark? = some m) (hm : op.mark? = some m) (n : Nat)
        (ps : List Pending) : ∀ l ∈ (ls ++ words [t]).getLast?, l.isAccess = true →
          ¬ Low (⟨op, n⟩ :: ps) := by
      intro l hl haccess hnot
      obtain rfl : t.lexeme = l := by simpa using hl
      have htrue : m = true := by simpa [isAccess_eq, hword] using haccess
      have hop := (mark?_eq_some_iff.1 hm).2
      rw [htrue, beq_iff_eq] at hop
      exact hnot _ rfl hop
    cases b with
    | true =>
      obtain ⟨hw, hcount⟩ := unaryWord?_of_ofLexeme? hop hwaits
      obtain ⟨m, hword, hm⟩ := mark?_of_unaryWord? hw
      obtain ⟨bs, hlaid, -, htraced⟩ := tracks_settles hs hop hsettles
      rw [hcount]
      refine ⟨bs ++ [m], .unary hm hlow hlaid, ?_, hpushed hword hm _ _⟩
      simpa [hword] using htraced
    | false =>
      obtain ⟨hw, hcount⟩ := mem_binaryWords_of_ofLexeme? hop hwaits
      obtain ⟨m, hword, hm⟩ := mark?_of_mem_binaryWords hw
      obtain ⟨bs, htop, htraced, hlast⟩ := hs
      cases htop.settles hsettles with
      | @intro _ _ bs e hlaid =>
        rw [hcount]
        refine ⟨bs ++ e.trail ++ [m], .binary hm hlow hlaid, ?_, hpushed hword hm _ _⟩
        have hsingle := Traced.singleton t.lexeme
        rw [hword] at hsingle
        refine htraced.append hsingle ?_
        intro l hl l' _
        simp [clash, hlast l hl]
  | call hopen hsettles hargs hclose =>
    exact tracks_suffix hs hsettles (traced_args hargs) rfl (by rw [hopen]; rfl)
      (by rw [hclose]; rfl)
  | @actionCall s₁ n args us action name opener closer haction hname hopen hsettles hargs hclose =>
    have hop : Operation.ofLexeme? action.lexeme true = some .actionCall := by rw [haction]; rfl
    obtain ⟨bs, hlaid, -, htraced⟩ := tracks_settles hs hop hsettles
    refine ⟨_, .intro hlaid, ?_, ?_⟩
    · rw [trail_apply_of_mark?_eq_none rfl]
      have hargs := (traced_args hargs).snoc hclose rfl
      have hall := htraced.join hname (.cons hopen hargs rfl) rfl
      simpa [haction, mark?, reference, trail] using hall
    · have haccess : closer.lexeme.isAccess = false := by
        rw [hclose]
        rfl
      exact not_access_of_last ls (action :: name :: opener :: us) haccess
  | @index ps list i os us opener closer hopen hsettles hnumber hclose =>
    have hargs : Traced (words us) (trailOf [i]) := by simpa [Traces] using hnumber
    exact tracks_suffix hs hsettles hargs rfl (by rw [hopen]; rfl) (by rw [hclose]; rfl)

theorem traced_of_reading (h : Reading Traces s b ts e) (ls : List Lexeme) (hs : Tracks s ls b) :
    Traced (ls ++ words ts) e.trail := by
  induction h generalizing ls with
  | finish hrest =>
    obtain ⟨bs, htop, htraced, -⟩ := hs
    obtain rfl := htop.collapses hrest
    simpa using htraced
  | turn hturn _ ih =>
    rw [words_append, ← append_assoc]
    exact ih _ (tracks_turn hturn hs)

end Stacks

variable {ts : List Token} {e : Expr}

theorem prints_of_reading (h : Reading Prints .empty true ts e) : Prints ts e :=
  fun hclash => printing_of_reading h [] hclash .nil

theorem traces_of_reading (h : Reading Traces .empty true ts e) : Traces ts e :=
  traced_of_reading h [] ⟨[], .nil, .nil, by simp⟩

/-- The tokens that are taken for an expression write what is returned exactly if no access among
them has an operator where its operand should start. -/
theorem expr_spelled_iff_clashless {ends : Ends} {ts : List Token} {last : Option Location}
    {e : Expr} {d : Cursor} (h : (expr ends).run ⟨ts, last⟩ = .ok e d) :
    ∃ us t rest, ts = us ++ t :: rest ∧ d = ⟨t :: rest, last⟩ ∧ ends.contains t.lexeme = true ∧
      ((∃ o, Spelling e o (us.map Token.lexeme)) ↔ Clashless (us.map Token.lexeme)) := by
  obtain ⟨us, t, rest, rfl, rfl, ht, hprints⟩ := expr_follows (fun _ _ => prints_of_reading) h
  obtain ⟨us', t', rest', hts, hd, -, htraces⟩ := expr_follows (fun _ _ => traces_of_reading) h
  obtain ⟨rfl, rfl⟩ : t = t' ∧ rest = rest' := by simpa using hd
  obtain rfl : us = us' := append_cancel_right hts
  refine ⟨us, t, rest, rfl, rfl, ht, ?_, ?_⟩
  · rintro ⟨o, hspelling⟩
    rcases htraces with ⟨-, hclash⟩ | hrise
    · exact hclash
    · exact absurd hspelling.marks_eq hrise.ne
  · intro hclash
    obtain ⟨o, hprinting⟩ := hprints hclash
    exact ⟨o, hprinting.spelling⟩

/-- The words `a . ( - b ) + @ c ( n , )`, with a semicolon behind them. -/
theorem expr_spelled_iff_clashless_sum :
    let here := Area.between .start .start
    let apply (op : Operation) : List Expr → Expr := .operator ⟨.unknown, here⟩ op
    let reference (n : String) : Expr := .reference n here
    let e := apply .add [
      apply .memberAccess [reference "a", apply .negate [reference "b"]],
      apply .call [apply .builtIn [reference "c"], reference "n"]]
    let ts := tokensOf [.name "a", .symbol .dot, .symbol .parenLeft, .symbol .minus, .name "b",
      .symbol .parenRight, .symbol .plus, .symbol .atSign, .name "c", .symbol .parenLeft, .name "n",
      .symbol .comma, .symbol .parenRight, .symbol .semicolon]
    let d : Cursor := ⟨tokensOf [.symbol .semicolon], none⟩
    (expr (.ofSymbols [.semicolon])).run ⟨ts, none⟩ = .ok e d ∧
      ∃ us t rest, ts = us ++ t :: rest ∧ d = ⟨t :: rest, none⟩ ∧
        (Ends.ofSymbols [.semicolon]).contains t.lexeme = true ∧
        ((∃ o, Spelling e o (us.map Token.lexeme)) ↔ Clashless (us.map Token.lexeme)) := by
  intro here apply reference e ts d
  have hrun : (expr (.ofSymbols [.semicolon])).run ⟨ts, none⟩ = .ok e d := rfl
  exact ⟨hrun, expr_spelled_iff_clashless hrun⟩

/-- The words `x + a . - b`: the access takes the left operand of the sum. -/
theorem expr_displaced_operand :
    let here := Area.between .start .start
    let apply (op : Operation) : List Expr → Expr := .operator ⟨.unknown, here⟩ op
    let reference (n : String) : Expr := .reference n here
    let e := apply .add [
      apply .memberAccess [reference "x", reference "a"], apply .negate [reference "b"]]
    let ls := [.name "x", .symbol .plus, .name "a", .symbol .dot, .symbol .minus, .name "b"]
    (expr (.ofSymbols [.semicolon])).run ⟨tokensOf (ls ++ [.symbol .semicolon]), none⟩ =
        .ok e ⟨tokensOf [.symbol .semicolon], none⟩ ∧
      ¬ ∃ o, Spelling e o ls := by
  intro here apply reference e ls
  refine ⟨rfl, ?_⟩
  rintro ⟨o, hspelling⟩
  exact absurd hspelling.marks_eq (by decide)

end Parser

end Diagram
