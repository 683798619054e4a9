import Mathlib.Data.List.Chain
import Diagram.Proofs.Parser.Printed

/-!
# What is read was printed

Unless the operand of an access starts with an operator, the tokens of a reading are a way of
printing the expression that it gives.  The invariant on the stacks is `Stacked`: the words
taken so far are those of the waiting operators with their left operands, from the bottom up.

Main statement: `printing_of_reading`.
-/

namespace Diagram

open List Operation

namespace Lexeme

/-- The words of the two operations that bind more tightly than any operator before an operand. -/
def isAccess : Lexeme → Bool
  | symbol .dot | symbol .atSign => true
  | _ => false

/-- The words of the operators that stand before their operand. -/
def opensOperator : Lexeme → Bool
  | symbol .plus | symbol .minus | symbol .bang | symbol .atSign | keyword .actionDecl => true
  | _ => false

/-- An access and an operator where its operand should start. -/
def clash (l l' : Lexeme) : Bool :=
  l.isAccess && l'.opensOperator

end Lexeme

/-- No access has an operator where its operand should start. -/
def Clashless (ls : List Lexeme) : Prop :=
  ls.IsChain fun l l' => l.clash l' = false

instance (ls : List Lexeme) : Decidable (Clashless ls) :=
  inferInstanceAs (Decidable (ls.IsChain _))

namespace Clashless

variable {ls ls' : List Lexeme} {l : Lexeme}

theorem left (h : Clashless (ls ++ ls')) : Clashless ls :=
  List.IsChain.left_of_append h

theorem right (h : Clashless (ls ++ ls')) : Clashless ls' :=
  List.IsChain.right_of_append h

theorem tail (h : Clashless (l :: ls)) : Clashless ls :=
  List.IsChain.tail h

end Clashless

namespace Parser

def words (ts : List Token) : List Lexeme :=
  ts.map Token.lexeme

variable {e : Expr}

@[simp] theorem words_nil : words [] = [] := rfl

@[simp] theorem words_cons (t : Token) (ts : List Token) :
    words (t :: ts) = t.lexeme :: words ts := rfl

@[simp] theorem words_append (ts us : List Token) : words (ts ++ us) = words ts ++ words us :=
  map_append

theorem printing_of_eq {o : Option Operation} {ls ls' : List Lexeme} (h : Printing e o ls)
    (hls : ls = ls') : Printing e o ls' :=
  hls ▸ h

/-- The tokens print the expression, unless an access has an operator for its operand. -/
def Prints (ts : List Token) (e : Expr) : Prop :=
  Clashless (words ts) → ∃ o, Printing e o (words ts)

section Forms

variable {ts us : List Token} {ls : List Lexeme} {e e' : Expr} {es : List Expr}

theorem items_of_args (h : ArgsReading Prints ts es) (hclash : Clashless (words ts)) :
    Items Printing es (words ts) := by
  induction h with
  | nil => exact .none
  | last harg =>
    obtain ⟨o, hprint⟩ := harg hclash
    exact .plain (.one hprint)
  | @cons ts us comma e es harg hcomma _ ih =>
    rw [words_append, words_cons, hcomma] at hclash ⊢
    obtain ⟨o, hprint⟩ := harg hclash.left
    have hitems := ih hclash.right.tail
    generalize words us = ls at hitems ⊢
    cases hitems with
    | none => exact .trailing (.one hprint)
    | plain hes => exact .plain (.cons hprint hes)
    | trailing hes =>
      rw [← cons_append, ← append_assoc]
      exact .trailing (.cons hprint hes)

/-- More clauses around a comprehension make a comprehension. -/
theorem clauses_append (h : ClausesReading Prints e us e') (hclash : Clashless (words us))
    (he : Clauses Printing e ls) : Clauses Printing e' (ls ++ words us) := by
  induction h generalizing ls with
  | done => simpa using he
  | next hfor hbound hin hsource _ ih =>
    simp only [words_append, words_cons, hfor, hin, append_assoc, cons_append] at hclash ⊢
    obtain ⟨o₁, hbound⟩ := hbound hclash.tail.left
    obtain ⟨o₂, hsource⟩ := hsource hclash.tail.right.tail.left
    have hmap := ih hclash.tail.right.tail.right (.next he hbound hsource)
    simpa using hmap

variable {o : Option Operation} {items : List Expr} {ls₁ : List Lexeme} {cond : Expr}

theorem clauses_of_clausesReading {forEach : Token} (h : ClausesReading Prints e (forEach :: us) e')
    (hclash : Clashless (words (forEach :: us))) (he : Printing e o ls) :
    Clauses Printing e' (ls ++ words (forEach :: us)) := by
  cases h with
  | next hfor hbound hin hsource hrest =>
    simp only [append_eq, words_append, words_cons, hfor, hin, append_assoc,
      cons_append] at hclash ⊢
    obtain ⟨o₁, hbound⟩ := hbound hclash.tail.left
    obtain ⟨o₂, hsource⟩ := hsource hclash.tail.right.tail.left
    have hmap := clauses_append hrest hclash.tail.right.tail.right (.first he hbound hsource)
    simpa using hmap

theorem clauses_enclosed (h : Clauses Printing e ls) (opener closer : Token) :
    Clauses Printing (enclosed opener closer e) ls := by
  cases h with
  | first he hbound hsource => exact .first he hbound hsource
  | next he hbound hsource => exact .next he hbound hsource

/-- Some items that were read, with the commas behind them. -/
def ItemsBefore (items : List Expr) (ls : List Lexeme) : Prop :=
  (items = [] ∧ ls = []) ∨ ∃ ls', Commas Printing items ls' ∧ ls = ls' ++ [.symbol .comma]

theorem ItemsBefore.words_eq_nil (h : ItemsBefore [] ls) : ls = [] := by
  rcases h with ⟨-, rfl⟩ | ⟨ls', hitems, -⟩
  · rfl
  · nomatch hitems

theorem commas_snoc (h : Commas Printing items ls) (he : Printing e o ls₁) :
    Commas Printing (items ++ [e]) (ls ++ .symbol .comma :: ls₁) := by
  induction h with
  | one hitem => exact .cons hitem (.one he)
  | cons hitem _ ih =>
    rw [append_assoc]
    exact .cons hitem ih

theorem commas_of_itemsBefore (h : ItemsBefore items ls) (he : Printing e o ls₁) :
    Commas Printing (items ++ [e]) (ls ++ ls₁) := by
  rcases h with ⟨rfl, rfl⟩ | ⟨ls', hitems, rfl⟩
  · exact .one he
  · simpa using commas_snoc hitems he

theorem printing_of_list {opener : Token} (h : ListReading Prints opener items ts e)
    (hclash : Clashless (words ts)) (hitems : ItemsBefore items ls) :
    Printing e none (.symbol .squareLeft :: ls ++ words ts) := by
  induction h generalizing ls with
  | close hclose =>
    simp only [words_cons, hclose, words_nil]
    rcases hitems with ⟨rfl, rfl⟩ | ⟨ls', hitems, rfl⟩
    · exact .list .none
    · exact .list (.trailing hitems)
  | last hitem hclose =>
    simp only [words_append, words_cons, words_nil, hclose] at hclash ⊢
    obtain ⟨o, hitem⟩ := hitem hclash.left
    exact printing_of_eq (.list (.plain (commas_of_itemsBefore hitems hitem))) (by simp)
  | next hitem hcomma _ ih =>
    rw [words_append, words_cons, hcomma] at hclash ⊢
    obtain ⟨o, hitem⟩ := hitem hclash.left
    have hbefore := commas_of_itemsBefore hitems hitem
    exact printing_of_eq (ih hclash.right.tail (.inr ⟨_, hbefore, rfl⟩)) (by simp)
  | fill hitem hsemicolon hcount hclose =>
    simp only [words_append, words_cons, words_nil, hsemicolon, hclose] at hclash ⊢
    obtain ⟨o, hitem⟩ := hitem hclash.left.left
    obtain ⟨o₁, hcount⟩ := hcount hclash.left.right.tail
    obtain rfl := hitems.words_eq_nil
    exact printing_of_eq (.fill hitem hcount) (by simp)
  | filter hitem hwhere hcond hclose =>
    simp only [words_append, words_cons, words_nil, hwhere, hclose] at hclash ⊢
    obtain ⟨o, hitem⟩ := hitem hclash.left.left
    obtain ⟨o₁, hcond⟩ := hcond hclash.left.right.tail
    obtain rfl := hitems.words_eq_nil
    exact printing_of_eq (.filter hitem hcond) (by simp)
  | map hitem hfor hclauses hclose =>
    rw [words_append, words_append] at hclash ⊢
    obtain ⟨o, hitem⟩ := hitem hclash.left.left
    obtain rfl := hitems.words_eq_nil
    have hmap := clauses_of_clausesReading hclauses hclash.left.right hitem
    exact printing_of_eq (.map (clauses_enclosed hmap _ _)) (by simp [hclose])
  | mapFilter hitem hfor hclauses hwhere hcond hclose =>
    rw [words_append, words_append, words_append] at hclash ⊢
    obtain ⟨o, hitem⟩ := hitem hclash.left.left.left
    obtain ⟨o₁, hcond⟩ := hcond hclash.left.right.tail
    obtain rfl := hitems.words_eq_nil
    have hmap := clauses_of_clausesReading hclauses hclash.left.left.right hitem
    exact printing_of_eq (.mapFilter hmap hcond) (by simp [hwhere, hclose])
  | @range items ts us dots closer item last _ _ hop hitem hdots hlast hclose =>
    simp only [words_append, words_cons, words_nil, hdots, hclose] at hclash ⊢
    rw [append_cons items item [last]]
    obtain ⟨o, hitem⟩ := hitem hclash.left.left
    obtain ⟨o₁, hlast⟩ := hlast hclash.left.right.tail
    have hcommas := commas_of_itemsBefore hitems hitem
    rcases hop with ⟨rfl, rfl⟩ | ⟨rfl, rfl⟩
    · exact printing_of_eq (.range rfl hcommas hlast) (by simp)
    · exact printing_of_eq (.range rfl hcommas hlast) (by simp)

/-- One more arm before the others. -/
theorem branches_cons {value : Expr} {o₁ : Option Operation} {rest : List Lexeme}
    (hcond : Printing cond o ls) (hvalue : Printing value o₁ ls₁) (h : Branches Printing es rest) :
    Branches Printing (cond :: value :: es)
      (ls ++ .symbol .colon :: ls₁ ++ .symbol .comma :: rest) := by
  cases h with
  | plain hes => exact .plain (.cons hcond hvalue hes)
  | default hes he =>
    have hbranches := Branches.default (.cons hcond hvalue hes) he
    simpa using hbranches

theorem branches_of_arms {operands result : List Expr} (h : ArmsReading Prints operands ts result)
    (hclash : Clashless (words ts)) (hcond : Printing cond o ls) :
    ∃ es body comma, result = operands ++ es ∧ words ts = body ++ comma ∧ OptionalComma comma ∧
      Branches Printing (cond :: es) (ls ++ body) := by
  induction h generalizing cond o ls with
  | @value operands ts colon value hcolon hvalue =>
    rw [words_cons, hcolon] at hclash ⊢
    obtain ⟨o₁, hvalue⟩ := hvalue hclash.tail
    exact ⟨[value], _, [], rfl, by simp, .inl rfl, .plain (.one hcond hvalue)⟩
  | @valueComma operands ts colon comma value hcolon hvalue hcomma =>
    simp only [words_append, words_cons, words_nil, hcolon, hcomma] at hclash ⊢
    obtain ⟨o₁, hvalue⟩ := hvalue hclash.left.tail
    exact ⟨[value], _, [.symbol .comma], rfl, rfl, .inr rfl, .plain (.one hcond hvalue)⟩
  | @default operands ts us colon comma value other hcolon hvalue hcomma hother =>
    simp only [words_append, words_cons, hcolon, hcomma] at hclash ⊢
    obtain ⟨o₁, hvalue⟩ := hvalue hclash.left.tail
    obtain ⟨o₂, hother⟩ := hother hclash.right.tail
    have hbranches := Branches.default (.one hcond hvalue) hother
    exact ⟨[value, other], _, [], rfl, (append_nil _).symm, .inl rfl, by simpa using hbranches⟩
  | @defaultComma operands ts us colon comma comma' value other hcolon hvalue hcomma hother
      hcomma' =>
      simp only [words_append, words_cons, words_nil, hcolon, hcomma, hcomma'] at hclash ⊢
      obtain ⟨o₁, hvalue⟩ := hvalue hclash.left.left.tail
      obtain ⟨o₂, hother⟩ := hother hclash.left.right.tail
      have hbranches := Branches.default (.one hcond hvalue) hother
      exact ⟨[value, other], _, [.symbol .comma], rfl, rfl, .inr rfl, by simpa using hbranches⟩
  | @next operands result ts us vs colon comma value cond' hcolon hvalue hcomma hcond' _ ih =>
    simp only [words_append, words_cons, hcolon, hcomma] at hclash ⊢
    obtain ⟨o₁, hvalue⟩ := hvalue hclash.left.left.tail
    obtain ⟨o₂, hcond'⟩ := hcond' hclash.left.right.tail
    obtain ⟨es, body, comma', rfl, hbody, hcomma', hrest⟩ := ih hclash.right hcond'
    refine ⟨value :: cond' :: es, .symbol .colon :: words ts ++ .symbol .comma :: words us ++ body,
      comma', by simp, by simp [hbody], hcomma', ?_⟩
    simpa using branches_cons hcond hvalue hrest

theorem printing_of_form (h : FormReading Prints ts e) (hclash : Clashless (words ts)) :
    Printing e none (words ts) := by
  cases h with
  | group hopen hcontent hclose =>
    simp only [words_append, words_cons, words_nil, hopen, hclose] at hclash ⊢
    obtain ⟨o, hcontent⟩ := hcontent hclash.left.tail
    exact .group hcontent
  | point hopen hx hcomma hy hclose =>
    simp only [words_append, words_cons, words_nil, hopen, hcomma, hclose] at hclash ⊢
    obtain ⟨o, hx⟩ := hx hclash.left.left.tail
    obtain ⟨o₁, hy⟩ := hy hclash.left.right.tail
    exact .point hx hy
  | list hopen hrest =>
    rw [words_cons, hopen] at hclash ⊢
    exact printing_of_list hrest hclash.tail (.inl ⟨rfl, rfl⟩)
  | conditional hopen hcond harms hclose =>
    simp only [words_append, words_cons, words_nil, hopen, hclose] at hclash ⊢
    obtain ⟨o, hcond⟩ := hcond hclash.left.left.tail
    obtain ⟨es, body, comma, rfl, hbody, hcomma, hbranches⟩ :=
      branches_of_arms harms hclash.left.right hcond
    exact printing_of_eq (.conditional hbranches hcomma) (by simp [hbody])

end Forms

section Stacks

variable {s s' : Stacks} {ps : List Pending} {os : List Expr} {ls us : List Lexeme} {e : Expr}
  {o : Option Operation} {op : Operation}

/-- The top of the waiting operators may have an operand of a kind on its right. -/
def Awaits (ps : List Pending) (o : Option Operation) : Prop :=
  ∀ p ∈ ps.head?, p.op.admits .right o = true

/-- The words of the waiting operators with their left operands. -/
inductive Stacked : List Pending → List Expr → List Lexeme → Prop
  | nil : Stacked [] [] []
  | unary {ps os ls op w} (hw : op.unaryWord? = some w) (hawaits : Awaits ps (some op))
      (hrest : Stacked ps os ls) : Stacked (⟨op, 1⟩ :: ps) os (ls ++ [w])
  | binary {ps os ls us op w e o} (hw : w ∈ op.binaryWords) (he : Printing e o us)
      (hleft : op.admits .left o = true) (hawaits : Awaits ps (some op))
      (hrest : Stacked ps os ls) : Stacked (⟨op, 2⟩ :: ps) (e :: os) (ls ++ us ++ [w])

/-- The words taken so far, behind an operand. -/
inductive Topped : Stacks → List Lexeme → Option Operation → Prop
  | intro {ps : List Pending} {os : List Expr} {ls us : List Lexeme} {e : Expr}
      {o : Option Operation} (hrest : Stacked ps os ls) (he : Printing e o us)
      (hawaits : Awaits ps o) : Topped ⟨ps, e :: os⟩ (ls ++ us) o

/-- An operator that takes its operands makes one of them. -/
theorem topped_take {p : Pending} (hrest : Stacked (p :: ps) os ls) (he : Printing e o us)
    (hawaits : Awaits (p :: ps) o) :
    Topped ⟨ps, Expr.apply p.op ((e :: os).take p.count).reverse :: (e :: os).drop p.count⟩
      (ls ++ us) (some p.op) := by
  have hright := hawaits p rfl
  cases hrest with
  | unary hw hawaits' hrest =>
    rw [append_assoc]
    exact .intro hrest (.unary hw he hright) hawaits'
  | binary hw he₁ hleft hawaits' hrest =>
    simp only [append_assoc, singleton_append]
    exact .intro hrest (.binary hw he₁ hleft he hright) hawaits'

variable {operands : List Expr} {w : Lexeme}

/-- Before an operation that follows an operand, the operators that precede it take theirs. -/
theorem Topped.settles (h : Settles op ps operands s) (htop : Topped ⟨ps, operands⟩ ls o)
    (hleft : op.admits .left o) :
    ∃ o', Topped s ls o' ∧ op.admits .left o' ∧ Awaits s.operators (some op) := by
  induction h generalizing o with
  | empty => exact ⟨o, htop, hleft, by simp [Awaits]⟩
  | stop hop =>
    refine ⟨o, htop, hleft, ?_⟩
    intro q hq
    obtain rfl := Option.mem_some.1 hq
    exact admits_right_iff.2 hop
  | take hop _ _ ih =>
    cases htop with
    | intro hrest he hawaits =>
      exact ih (topped_take hrest he hawaits) (admits_left_iff.2 (.inl hop))

theorem Topped.collapses (h : Collapses ps operands [e]) (htop : Topped ⟨ps, operands⟩ ls o) :
    ∃ o', Printing e o' ls := by
  generalize hresult : [e] = result at h
  induction h generalizing o with
  | done =>
    subst hresult
    cases htop with
    | intro hrest he _ =>
      cases hrest
      exact ⟨o, he⟩
  | take _ _ ih =>
    cases htop with
    | intro hrest he hawaits => exact ih (topped_take hrest he hawaits) hresult

attribute [local simp] ofLexeme? ofSymbol ofKeyword

/-- An operator where an operand is expected opens it with a word of its own, and only an access
can precede it. -/
theorem opensOperator_of_ofLexeme? (h : ofLexeme? w true = some op) :
    w.opensOperator ∧ 8 ≤ op.precedence.level := by
  cases w with
  | symbol s =>
    cases s <;> simp at h <;> subst h <;>
      simp [Lexeme.opensOperator, precedence, Precedence.level]
  | keyword k =>
    cases k <;> simp at h
    subst h
    simp [Lexeme.opensOperator, precedence, Precedence.level]
  | _ => simp at h

theorem isAccess_of_access {q : Operation} (hw : q.unaryWord? = some w ∨ w ∈ q.binaryWords)
    (hq : q.precedence = .access) : w.isAccess := by
  cases q <;> simp [precedence] at hq
  · obtain rfl : w = .symbol .dot := by simpa [unaryWord?, binaryWords] using hw
    rfl
  · obtain rfl : .symbol .atSign = w := by
      simpa [unaryWord?, binaryWords] using hw
    rfl

theorem Stacked.settles (h : Stacked ps os ls) (hop : ofLexeme? w true = some op)
    (hclash : Clashless (ls ++ [w])) (hsettles : Settles op ps os s) :
    s = ⟨ps, os⟩ ∧ Awaits ps (some op) := by
  obtain ⟨hopens, hlevel⟩ := opensOperator_of_ofLexeme? hop
  cases hsettles with
  | empty => exact ⟨rfl, by simp [Awaits]⟩
  | stop hnot =>
    refine ⟨rfl, ?_⟩
    intro q hq
    obtain rfl := Option.mem_some.1 hq
    exact admits_right_iff.2 hnot
  | take hprecedes _ _ =>
    -- The word of the access would stand right before that of the operator.
    exfalso
    have hpair (w' : Lexeme) (ls' : List Lexeme) (hls : ls = ls' ++ [w'])
        (haccess : w'.isAccess = true) : False := by
      subst hls
      have hnot := isChain_pair.1 (append_assoc .. ▸ hclash).right
      simp [Lexeme.clash, haccess, hopens] at hnot
    cases h with
    | unary hw _ _ =>
      have haccess := access_of_precedes (isOpen_of_unaryWord? hw) hlevel hprecedes
      exact hpair _ _ rfl (isAccess_of_access (.inl hw) haccess)
    | binary hw _ _ _ _ =>
      have haccess := access_of_precedes (isOpen_of_mem_binaryWords hw) hlevel hprecedes
      exact hpair _ _ rfl (isAccess_of_access (.inr hw) haccess)

/-- The words taken so far are those of what the stacks hold.  Behind an operand, what was taken
last is one that any operation may follow. -/
def Accounts (s : Stacks) (ls : List Lexeme) : (expectOperand : Bool) → Prop
  | true => Stacked s.operators s.operands ls
  | false => ∃ o, Topped s ls o ∧ ∀ op : Operation, op.admits .left o = true

theorem printing_of_operand? {t : Token} (h : operand? t = some e) :
    Printing e none (words [t]) := by
  unfold operand? at h
  rw [words_cons]
  split at h <;> cases h <;> simp only [*]
  case h_1 => exact .name
  all_goals exact .literal rfl

theorem accounts_push (h : Stacked s.operators s.operands ls) (he : Printing e none us) :
    Accounts (s.push e) (ls ++ us) false :=
  ⟨none, .intro h he (fun _ _ => rfl), fun _ => rfl⟩

theorem unaryWord?_of_ofLexeme? (h : ofLexeme? w true = some op)
    (hwaits : waits op) : op.unaryWord? = some w ∧ operandCount op = 1 := by
  cases w with
  | symbol s =>
    cases s <;> simp at h <;> subst h <;>
      exact ⟨rfl, rfl⟩
  | keyword k =>
    cases k <;> simp at h
    subst h
    simp [waits] at hwaits
  | _ => simp at h

theorem mem_binaryWords_of_ofLexeme? (h : ofLexeme? w false = some op)
    (hwaits : waits op) : w ∈ op.binaryWords ∧ operandCount op = 2 := by
  cases w with
  | symbol s =>
    cases s <;> simp at h <;> subst h <;>
      simp [waits, binaryWords, operandCount] at hwaits ⊢
  | keyword k =>
    cases k <;> simp at h
    subst h
    simp [binaryWords, operandCount]
  | _ => simp at h

theorem accounts_turn {b b' : Bool} {ts : List Token} (h : Turn Prints s b ts s' b')
    (hclash : Clashless (ls ++ words ts))
    (hs : Accounts s ls b) :
    Accounts s' (ls ++ words ts) b' := by
  cases h with
  | operand hoperand => exact accounts_push hs (printing_of_operand? hoperand)
  | form hform => exact accounts_push hs (printing_of_form hform hclash.right)
  | operator hop hwaits hsettles =>
    cases b with
    | true =>
      obtain ⟨hw, hcount⟩ := unaryWord?_of_ofLexeme? hop hwaits
      obtain ⟨rfl, hawaits⟩ := Stacked.settles hs hop hclash hsettles
      rw [hcount]
      exact .unary hw hawaits hs
    | false =>
      obtain ⟨hw, hcount⟩ := mem_binaryWords_of_ofLexeme? hop hwaits
      obtain ⟨o, htop, hclosed⟩ := hs
      obtain ⟨o', htop', hleft, hawaits⟩ := htop.settles hsettles (hclosed _)
      cases htop' with
      | intro hrest he _ =>
        rw [hcount]
        exact .binary hw he hleft hawaits hrest
  | call hopen hsettles hargs hclose =>
    simp only [cons_append, words_cons, words_append, words_nil, hopen, hclose] at hclash ⊢
    obtain ⟨o, htop, hclosed⟩ := hs
    obtain ⟨o', htop', hleft, hawaits⟩ := htop.settles hsettles (hclosed _)
    have hitems := items_of_args hargs hclash.right.tail.left
    cases htop' with
    | intro hrest he _ =>
      refine ⟨some .call, ?_, fun op => admits_left_iff.2 (.inr rfl)⟩
      rw [append_assoc]
      exact .intro hrest (printing_of_eq (.call he hleft hitems) (by simp)) hawaits
  | actionCall haction hname hopen hsettles hargs hclose =>
    simp only [cons_append, words_cons, words_append, words_nil, haction, hname, hopen,
      hclose] at hclash ⊢
    have hitems := items_of_args hargs hclash.right.tail.tail.tail.left
    obtain ⟨rfl, hawaits⟩ := Stacked.settles hs rfl (append_cons .. ▸ hclash).left hsettles
    refine ⟨some .actionCall, ?_, fun op => admits_left_iff.2 (.inr rfl)⟩
    exact .intro hs (.actionCall hitems) hawaits
  | index hopen hsettles hnumber hclose =>
    simp only [cons_append, words_cons, words_append, words_nil, hopen, hclose] at hclash ⊢
    obtain ⟨o, htop, hclosed⟩ := hs
    obtain ⟨o', htop', hleft, hawaits⟩ := htop.settles hsettles (hclosed _)
    obtain ⟨o₁, hnumber⟩ := hnumber hclash.right.tail.left
    cases htop' with
    | intro hrest he _ =>
      refine ⟨some .index, ?_, fun op => admits_left_iff.2 (.inr rfl)⟩
      rw [append_assoc]
      exact .intro hrest (printing_of_eq (.index he hleft hnumber) (by simp)) hawaits

end Stacks

/-- What a reading gives is printed by its tokens, unless an access has an operator for its
operand. -/
theorem printing_of_reading {s : Stacks} {b : Bool} {ts : List Token} (h : Reading Prints s b ts e)
    (ls : List Lexeme) (hclash : Clashless (ls ++ words ts)) (hs : Accounts s ls b) :
    ∃ o, Printing e o (ls ++ words ts) := by
  induction h generalizing ls with
  | finish hrest =>
    obtain ⟨o, htop, -⟩ := hs
    simpa using htop.collapses hrest
  | turn hturn _ ih =>
    rw [words_append, ← append_assoc] at hclash ⊢
    exact ih _ hclash (accounts_turn hturn hclash.left hs)

end Parser

end Diagram
