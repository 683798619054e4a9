import Diagram.Proofs.Parser.Judged
import Diagram.Proofs.Program.Items

/-!
# What programs are read as, and where they are refused

All parsers of actions, elements and declarations are judged, each with at least one token taken
where a loop repeats it.  So tokens that write a program give one that is made as it should be,
and tokens that write none are refused where one of them starts or stops.

Main statements: `Program.wellMade_of_parse`, `Program.shaped_of_parse`,
`Program.touches_of_parse_eq_error`.
-/

namespace Diagram.Parser

open List

open Cursor

variable {α : Type} {tokens : List Token} {P : Cursor → Prop} {n m : Nat} {t : Token}

variable {fuel : Nat}

section Actions

theorem judged_actionOf {e : Expr} (he : e.Shaped tokens) :
    Judged tokens P (actionOf e) fun a c => P c ∧ a.Whole (Expr.Shaped tokens) := by
  unfold actionOf
  split
  · cases he with
    | operator _ _ hoperands =>
      exact .pure fun _ _ h =>
        ⟨h, .update (hoperands _ (by simp)) (hoperands _ (by simp))⟩
  · cases he with
    | operator _ _ hoperands =>
      obtain ⟨hcallee, hargs⟩ := forall_mem_cons.1 hoperands
      exact .pure fun _ _ h => ⟨h, .call hcallee hargs⟩
  · exact .failAt rfl fun _ _ _ => he.area.touches

theorem judged_inlineAction : Judged tokens (Left n) inlineAction fun a c =>
    c.Left (n - 1) ∧ a.Whole (Expr.Shaped tokens) :=
  (judged_expr _).bindValue fun _ he => (judged_actionOf he).mono (fun _ h => h)
    fun _ _ h => ⟨h.1.left, h.2⟩

/-- A parser of actions is judged where less than `n` tokens are left, and takes one of them. -/
def Acts (tokens : List Token) (n : Nat) (nested : Parser Action) : Prop :=
  ∀ j < n, Judged tokens (Left j) nested fun a c =>
    c.Left (j - 1) ∧ a.Whole (Expr.Shaped tokens)

variable {nested : Parser Action}

theorem Acts.mono (h : Acts tokens n nested) (hmn : m ≤ n) : Acts tokens m nested :=
  fun j hj => h j (Nat.lt_of_lt_of_le hj hmn)

theorem judged_branch (hA : Acts tokens (n + 1) nested) :
    Judged tokens (Left n) (branch nested) fun a c =>
      c.Left n ∧ a.Whole (Expr.Shaped tokens) := by
  refine (hA n (Nat.lt_succ_self n)).bindValue fun _ ha => ?_
  refine (judged_skipSymbol.pre fun _ h => h.mono (Nat.sub_le n 1)).bind fun _ => ?_
  exact .give ha

/-- Looking for a keyword that is under the cursor finds it. -/
theorem judged_atKeyword_of_eq {k : Keyword} :
    Judged tokens (fun c => ∃ t, c.At n t ∧ t.lexeme = .keyword k) (atKeyword k)
      fun b c => b ∧ c.On n := by
  intro c hc hpre
  obtain ⟨t, ht, hlexeme⟩ := hpre
  obtain ⟨ts, hts⟩ := head?_eq_some_iff.1 ht.2
  have hrun : (atKeyword k).run c = .ok true c :=
    run_atKeyword_eq_ok.2 ⟨rfl, t, ts, hts, by simp [hlexeme]⟩
  rw [hrun]
  exact ⟨hc, rfl, ht.on⟩

def ArmsWhole (tokens : List Token) (arms : List (Expr × Action)) : Prop :=
  (∀ arm ∈ arms, arm.1.Shaped tokens) ∧ ∀ arm ∈ arms, arm.2.Whole (Expr.Shaped tokens)

theorem judged_branchBehind (hA : Acts tokens (n + 1) nested) {more : Parser (List (Expr × Action))}
    (hmore : Judged tokens (Left n) more fun arms c => c.Left n ∧ ArmsWhole tokens arms) :
    Judged tokens (On (n + 1)) (do
      advance
      let cond ← expr (.ofSymbols [.colon])
      advance
      let body ← branch nested
      return (cond, body) :: (← more)) fun arms c => c.Left n ∧ ArmsWhole tokens arms := by
  refine .skip <| (judged_expr _).bindValue fun cond hcond => ?_
  refine (judged_advance_left.pre fun _ h => h.left.mono (Nat.sub_le n 1)).bind fun _ => ?_
  refine (judged_branch hA).bindValue fun body hbody => hmore.bindValue fun _ harms => ?_
  exact .pure fun _ _ h => ⟨h, forall_mem_cons.2 ⟨hcond, harms.1⟩,
    forall_mem_cons.2 ⟨hbody, harms.2⟩⟩

theorem judged_branches (hA : Acts tokens n nested) (hm : m ≤ n) (hfuel : m < fuel) (k : Keyword) :
    Judged tokens (Left m) (branches nested fuel k) fun arms c =>
      c.Left m ∧ ArmsWhole tokens arms := by
  induction fuel generalizing m k with
  | zero => omega
  | succ fuel ih =>
    refine judged_atKeyword.bind fun _ => .on fun j hj => .ite (fun _ => ?_) fun _ => ?_
    · refine (judged_branchBehind (hA.mono (by omega)) ?_).post
        fun _ _ h => ⟨h.1.mono (by omega), h.2⟩
      exact ih (by omega) (by omega) .elifCond
    · exact .pure fun _ _ hon => ⟨hj ▸ hon.left, by simp, by simp⟩

/-- A conditional that starts with its keyword takes it. -/
theorem judged_ifChain (hA : Acts tokens (n + 1) nested) :
    Judged tokens (fun c => ∃ t, c.At (n + 1) t ∧ t.lexeme = .keyword .ifCond) (ifChain nested)
      fun a c => c.Left n ∧ a.Whole (Expr.Shaped tokens) := by
  have harms : Judged tokens (fun c => ∃ t, c.At (n + 1) t ∧ t.lexeme = .keyword .ifCond)
      (do branches nested (← get).budget .ifCond) fun arms c =>
        c.Left n ∧ ArmsWhole tokens arms := by
    refine judged_budget_of_length (branches nested · .ifCond) fun j => ?_
    -- With its keyword under the cursor, the first branch leaves less tokens than there are turns.
    have hcount : ∀ c : Cursor, (∃ t, c.At (n + 1) t ∧ t.lexeme = .keyword .ifCond) ∧
        c.rest.length = j → ∃ i ≤ n, j = i + 1 := by
      rintro c ⟨⟨t, ht, -⟩, rfl⟩
      have hleft : c.rest.length ≤ n + 1 := ht.1
      have hpos : 0 < c.rest.length := length_pos_of_mem (mem_of_head? ht.2)
      exact ⟨c.rest.length - 1, by omega, by omega⟩
    refine judged_of_imp (fun c _ hpre => hcount c hpre) fun ⟨i, hi, hj⟩ => ?_
    subst hj
    have hstart : Judged tokens (fun c => ∃ t, c.At (i + 1) t ∧ t.lexeme = .keyword .ifCond)
        (branches nested (i + 2) .ifCond) fun arms c => c.Left n ∧ ArmsWhole tokens arms := by
      refine judged_atKeyword_of_eq.bind fun b => .ite (fun _ => ?_) fun hb => ?_
      · refine (judged_branchBehind (hA.mono (by omega)) ?_).mono (fun _ h => h.2)
          fun _ _ h => ⟨h.1.mono hi, h.2⟩
        exact judged_branches (hA.mono (show i ≤ n + 1 by omega)) (Nat.le_refl i) (by omega) _
      · exact judged_of_imp (fun _ _ h => absurd h.1 hb) False.elim
    refine hstart.pre fun c hpre => ?_
    obtain ⟨⟨t, ht, hlexeme⟩, hlength⟩ := hpre
    exact ⟨t, ⟨Nat.le_of_eq hlength, ht.2⟩, hlexeme⟩
  refine harms.bindValue fun arms harms => judged_seesKeyword.bind fun b =>
    .ite (fun _ => ?_) fun _ => ?_
  · refine (judged_advance_left.pre fun _ h => h.1).bind fun _ => ?_
    refine judged_expectSymbol.bind fun _ => ?_
    refine judged_advance_on.bind fun _ => ?_
    refine (judged_branch hA).bindValue fun _ hdefault => ?_
    exact .pure fun _ _ h => ⟨h, .conditionalElse harms.1 harms.2 hdefault⟩
  · exact .pure fun _ _ h => ⟨h.1, .conditional harms.1 harms.2⟩

theorem judged_blockItem (hA : Acts tokens (n + 2) nested) :
    Judged tokens (On (n + 1)) (blockItem nested) fun a c =>
      c.Left n ∧ a.Whole (Expr.Shaped tokens) := by
  refine judged_seesKeyword.ofOn.bind fun b => ?_
  refine judged_ite_bind (fun hb => (judged_ifChain (hA.mono (by omega))).pre fun _ h => h.2 hb)
    (fun _ => (hA (n + 1) (by omega)).pre fun _ h => h.1) fun a ha => ?_
  exact judged_skipSymbol.bind fun _ => .give ha

/-- There are as many levels of blocks as tokens, and each level takes its opening brace. -/
theorem acts_actionWithin (depth : Nat) (allowInline : Bool) :
    Acts tokens depth (actionWithin depth allowInline) := by
  induction depth generalizing allowInline with
  | zero =>
    intro j hj
    omega
  | succ depth ih =>
    intro j hj
    refine judged_atSymbol.bind fun _ => .ite (fun _ => ?_) fun _ => ?_
    · refine .on fun k hk => .skip ?_
      refine (judged_untilSymbol fun i hi => judged_blockItem ((ih true).mono (by omega))).bindValue
        fun actions hactions => ?_
      refine judged_advance_on.bind fun _ => ?_
      exact .pure fun _ _ h => ⟨h.mono (by omega), Action.whole_ofList hactions⟩
    · refine .ite (fun _ => ?_) fun _ => ?_
      · exact judged_inlineAction.ofOn
      · exact judged_token_on.bind fun t => .refuse rfl rfl

theorem judged_action (allowInline : Bool) :
    Judged tokens (Left n) (action allowInline) fun a c =>
      c.Left n ∧ a.Whole (Expr.Shaped tokens) := by
  refine judged_budget (actionWithin · allowInline) fun j hj => ?_
  exact (acts_actionWithin (j + 1) allowInline j (Nat.lt_succ_self j)).post
    fun _ _ h => ⟨h.1.mono (by omega), h.2⟩

end Actions

section Elements

variable {args : List Expr}

theorem judged_constantString {e : Expr} (he : e.Shaped tokens) :
    Judged tokens P (constantString e) fun _ => P := by
  unfold constantString
  split
  · exact .pure fun _ _ h => h
  · exact .failAt rfl fun _ _ _ => he.area.touches

theorem judged_choiceOr (hargs : ∀ e ∈ args, e.Shaped tokens) {i : Nat} {options : List α}
    {text : α → String} {default : α} :
    Judged tokens P (choiceOr args i options text default) fun _ => P := by
  unfold choiceOr
  split
  · rename_i e he
    have hshaped := hargs e (mem_of_getElem? he)
    refine (judged_constantString hshaped).bind fun s => ?_
    split
    · exact .pure fun _ _ h => h
    · exact .failAt rfl fun _ _ _ => hshaped.area.touches
  · exact .pure fun _ _ h => h

/-- The first text is only asked for where an argument has to be given. -/
theorem judged_firstText (hargs : ∀ e ∈ args, e.Shaped tokens) (hne : 0 < args.length) :
    Judged tokens P (firstText args) fun _ => P := by
  cases args with
  | nil => exact absurd hne (Nat.lt_irrefl 0)
  | cons e rest => exact judged_constantString (hargs e mem_cons_self)

variable {name : String} {low high : Nat}

theorem judged_attributeArgs :
    Judged tokens (On (n + 1)) (attributeArgs name low high) fun args c =>
      c.Left n ∧ low ≤ args.length ∧ ∀ e ∈ args, e.Shaped tokens := by
  refine judged_token_on.bind fun first => ?_
  refine judged_of_imp (fun _ hc ht => hc.mem ht) fun hfirst => ?_
  refine judged_advance.ofAt.bind fun _ => ?_
  refine (judged_call.pre fun _ h => h.mono (Nat.le_succ n)).bindValue fun args hargs => ?_
  refine judged_token_on.bind fun closer => ?_
  refine judged_advance_on.ofAt.bind fun _ => .ite (fun _ => ?_) fun h => ?_
  · exact .failAt rfl fun _ _ _ => ⟨first, hfirst, .inl rfl⟩
  · have hlow : low ≤ args.length := by omega
    exact .pure fun _ _ hleft => ⟨hleft, hlow, hargs⟩

/-- An argument that was left out stands for a number. -/
theorem given_argumentOr (hargs : ∀ e ∈ args, e.Shaped tokens) (i : Nat) (x : Float) :
    Given (Expr.Quantity tokens) (argumentOr args i x) := by
  refine ⟨_, rfl, ?_⟩
  cases h : args[i]? with
  | none => exact .inr ⟨x, rfl⟩
  | some e => exact .inl (hargs e (mem_of_getElem? h))

theorem judged_pointAttr : Judged tokens (On (n + 1)) pointAttr fun a c => c.Left n ∧
    Given (Expr.Quantity tokens) a.size ∧ Given (Expr.Quantity tokens) a.opacity :=
  judged_attributeArgs.bindValue fun _ h => (judged_choiceOr h.2).bind fun _ =>
    .pure fun _ _ hleft => ⟨hleft, given_argumentOr h.2 0 0, given_argumentOr h.2 1 1⟩

theorem judged_strokeAttr : Judged tokens (On (n + 1)) strokeAttr fun a c => c.Left n ∧
    Given (Expr.Quantity tokens) a.width ∧ Given (Expr.Quantity tokens) a.opacity :=
  judged_attributeArgs.bindValue fun _ h => (judged_choiceOr h.2).bind fun _ =>
    .pure fun _ _ hleft => ⟨hleft, given_argumentOr h.2 0 0, given_argumentOr h.2 1 1⟩

theorem judged_fillAttr : Judged tokens (On (n + 1)) fillAttr fun a c => c.Left n ∧
    Given (Expr.Quantity tokens) a.opacity :=
  judged_attributeArgs.bindValue fun _ h =>
    .pure fun _ _ hleft => ⟨hleft, given_argumentOr h.2 0 1⟩

theorem judged_labelAttr : Judged tokens (On (n + 1)) labelAttr fun a c => c.Left n ∧
    Given (Expr.Quantity tokens) a.opacity ∧ Given (Expr.Quantity tokens) a.scale ∧
      Given (Expr.Quantity tokens) a.angle :=
  judged_attributeArgs.bindValue fun _ h => (judged_firstText h.2 h.1).bind fun _ =>
    (judged_choiceOr h.2).bind fun _ => .pure fun _ _ hleft =>
      ⟨hleft, given_argumentOr h.2 1 1, given_argumentOr h.2 2 1, given_argumentOr h.2 3 0⟩

theorem judged_dragAttr : Judged tokens (On (n + 1)) dragAttr fun _ => Left n :=
  judged_attributeArgs.bindValue fun _ h => judged_choiceOr h.2

theorem judged_clickAttr : Judged tokens (On (n + 1)) clickAttr fun a c =>
    c.Left n ∧ a.Whole (Expr.Shaped tokens) :=
  .skip <| judged_action false

theorem judged_descriptionAttr : Judged tokens (On (n + 1)) descriptionAttr fun _ => Left n :=
  judged_attributeArgs.bindValue fun _ h => judged_firstText h.2 h.1

variable {e : Element}

theorem judged_readAttribute (he : e.Whole (Expr.Quantity tokens) (Expr.Shaped tokens))
    (ht : t ∈ tokens) (name : String) :
    Judged tokens (On (n + 1)) (readAttribute e t name) fun e c =>
      c.Left n ∧ e.Whole (Expr.Quantity tokens) (Expr.Shaped tokens) := by
  have hrefused : t.area.Touches tokens := (Token.among_area ht).touches
  have honce : ∀ taken : Bool, Judged tokens (On (n + 1))
      (if taken then failAt t.area (.repeatedAttribute name) else pure ()) fun _ => On (n + 1) :=
    fun taken => .ite (fun _ => .failAt rfl fun _ _ _ => hrefused)
      fun _ => .pure fun _ _ hon => hon
  unfold readAttribute
  split
  · refine (honce _).bind fun _ => judged_pointAttr.bindValue fun _ ha => ?_
    exact .pure fun _ _ h => ⟨h, { he with point := fun _ heq => Option.some.inj heq ▸ ha }⟩
  · refine (honce _).bind fun _ => judged_strokeAttr.bindValue fun _ ha => ?_
    exact .pure fun _ _ h => ⟨h, { he with stroke := fun _ heq => Option.some.inj heq ▸ ha }⟩
  · refine (honce _).bind fun _ => judged_fillAttr.bindValue fun _ ha => ?_
    exact .pure fun _ _ h => ⟨h, { he with fill := fun _ heq => Option.some.inj heq ▸ ha }⟩
  · refine (honce _).bind fun _ => judged_labelAttr.bindValue fun _ ha => ?_
    exact .pure fun _ _ h => ⟨h, { he with label := fun _ heq => Option.some.inj heq ▸ ha }⟩
  · refine (honce _).bind fun _ => judged_dragAttr.bind fun _ => ?_
    exact .pure fun _ _ h => ⟨h, { he with }⟩
  · refine (honce _).bind fun _ => judged_clickAttr.bindValue fun _ ha => ?_
    exact .pure fun _ _ h => ⟨h, { he with click := fun _ heq => Option.some.inj heq ▸ ha }⟩
  · refine (honce _).bind fun _ => judged_descriptionAttr.bind fun _ => ?_
    exact .pure fun _ _ h => ⟨h, { he with }⟩
  · exact .failAt rfl fun _ _ _ => hrefused

theorem judged_attributes (hfuel : n < fuel)
    (he : e.Whole (Expr.Quantity tokens) (Expr.Shaped tokens)) :
    Judged tokens (Left n) (attributes fuel e) fun e c =>
      c.Left n ∧ e.Whole (Expr.Quantity tokens) (Expr.Shaped tokens) := by
  induction fuel generalizing n e with
  | zero => omega
  | succ fuel ih =>
    refine judged_atSymbol.bind fun _ => .on fun k hk => .ite (fun _ => ?_) fun _ => ?_
    · exact .pure fun _ _ hon => ⟨hk ▸ hon.left, he⟩
    · refine judged_token_on.bind fun t => ?_
      refine judged_of_imp (fun _ hc ht => hc.mem ht) fun ht => ?_
      refine (judged_expectName.pre fun _ ht => ht.1).bindValue fun name _ => ?_
      refine (judged_readAttribute he ht name).bindValue fun e he => ?_
      refine judged_expectOneOf.bind fun _ => ?_
      refine judged_skipSymbol.ofOn.bind fun _ => ?_
      exact (ih (by omega) he).post fun _ _ h => ⟨h.1.mono (by omega), h.2⟩

theorem judged_element : Judged tokens (Left (n + 1)) element fun e c =>
    c.Left n ∧ e.Whole (Expr.Quantity tokens) (Expr.Shaped tokens) := by
  refine (judged_expr _).bindValue fun what hwhat => ?_
  refine (judged_advance_left.pre fun _ h => h.left).bind fun _ => ?_
  refine (judged_expr _).bindValue fun color hcolor => ?_
  refine (judged_skipSymbol.pre fun _ h => h.left.mono (Nat.sub_le n 1)).bind fun _ => ?_
  refine judged_budget (attributes · (.plain (some what) (some color))) fun j hj => ?_
  refine (judged_attributes (Nat.lt_succ_self j) ?_).post fun _ _ h => ⟨h.1.mono hj, h.2⟩
  constructor
  case what => exact ⟨what, rfl, .inl hwhat⟩
  case color => exact ⟨color, rfl, .inl hcolor⟩
  all_goals
    intro a ha
    cases ha

end Elements

section Declarations

theorem judged_ty (ends : Ends) :
    Judged tokens (Left n) (ty ends) fun t c => c.Left n ∧ t.Written := by
  have hnamed : Judged tokens (On n) (Ty.ofName <$> expectName) fun t c => c.On n ∧ t.Written := by
    refine judged_expectName.ofOn.bindValue fun name _ => ?_
    exact .pure fun _ _ hon => ⟨hon, Ty.written_ofName name⟩
  refine judged_atSymbol.bind fun isList => ?_
  refine .when judged_advance_on (fun _ hon => hon.left) fun _ => judged_atSymbol.bind fun _ => ?_
  refine judged_ite_bind (fun _ => .pure fun _ _ hon => ⟨hon, trivial⟩) (fun _ => hnamed)
    fun item hitem => ?_
  have hend : Judged tokens (Left n) (do
      expectOneOf ends
      return if isList then .list item else item : Parser Ty) fun t c => c.Left n ∧ t.Written := by
    refine judged_expectOneOf.bind fun _ => .pure fun _ _ hon => ⟨hon.left, ?_⟩
    cases isList with
    | false | true => exact hitem
  refine judged_advance_on.bind fun _ => .ite (fun _ => ?_) fun _ => hend
  exact judged_expectSymbol.bind fun _ => judged_advance_on.bind fun _ => hend

theorem judged_param : Judged tokens (On (n + 1)) param fun p c =>
    c.Left n ∧ p.ty.Written ∧ Token.Spells tokens p.name := by
  refine judged_expectName.ofOn.bindValue fun name hname => ?_
  refine .skip <| judged_expectOneOf.bind fun _ => ?_
  refine judged_seesSymbol.ofOn.bind fun _ =>
    .ite (fun _ => ?_) fun _ => ?_
  · refine (judged_advance_left.pre fun _ h => h.1).bind fun _ => ?_
    refine (judged_ty _).bindValue fun t ht => judged_skipSymbol.bind fun _ => ?_
    exact .pure fun _ _ h => ⟨h, ht, hname⟩
  · refine (judged_skipSymbol.pre fun _ h => h.1).bind fun _ => ?_
    exact .pure fun _ _ h => ⟨h, trivial, hname⟩

theorem judged_params : Judged tokens (Left n) params fun ps c =>
    c.Left n ∧ ∀ p ∈ ps.getD [], p.ty.Written ∧ Token.Spells tokens p.name := by
  refine judged_advance_left.bind fun _ => judged_atSymbol.bind fun _ =>
    .ite (fun _ => ?_) fun _ => .pure fun _ _ hon => ⟨hon.left, by simp⟩
  refine judged_advance_on.bind fun _ => ?_
  refine (judged_untilSymbol fun _ _ => judged_param).bindValue fun ps hps => ?_
  exact judged_advance_on.bind fun _ => .give hps

theorem judged_declaredTy : Judged tokens (Left n) declaredTy fun t c => c.Left n ∧ t.Written := by
  refine judged_atSymbol.bind fun _ => .ite (fun _ => ?_) fun _ => ?_
  · refine judged_advance_on.bind fun _ => (judged_ty _).bindValue fun t ht => ?_
    exact judged_advance_left.bind fun _ => .give ht
  · refine judged_expectSymbol.ofOn.bind fun _ => ?_
    exact judged_advance_on.bind fun _ => .give trivial

theorem judged_definition :
    Judged tokens (Left n) definition fun e c => c.Left n ∧ e.Shaped tokens := by
  refine (judged_expr _).bindValue fun value hvalue => ?_
  refine (judged_advance_left.pre fun _ h => h.left.mono (Nat.sub_le n 1)).bind fun _ => ?_
  exact .give hvalue

theorem judged_nameToken : Judged tokens (Left n) nameToken fun r c =>
    c.Left n ∧ r.1 ∈ tokens ∧ Token.Spells tokens r.2 := by
  refine judged_token.bind fun t => judged_of_imp (fun _ hc ht => hc.mem ht) fun ht => ?_
  refine (judged_expectName.pre fun _ hpre => hpre.1).bindValue fun name hname => ?_
  exact .pure fun _ _ hon => ⟨hon.left, ht, hname⟩

/-- A name that is taken is refused where it is declared again. -/
theorem judged_declare {p : Program} {sig : Signature} (ht : t ∈ tokens) :
    Judged tokens P (declare p sig t) fun q c => P c ∧ ¬p.signatures.contains sig.name ∧
      q = { p with signatures := p.signatures.insert sig.name { sig with area := t.area } } := by
  unfold declare Signatures.add
  cases hget : p.signatures.get? sig.name with
  | some previous => exact .failAt rfl fun _ _ _ => (Token.among_area ht).touches
  | none => exact .pure fun _ _ h => ⟨h, by simp [NameMap.contains, hget], rfl⟩

end Declarations

section Programs

variable {p q : Program}

/-- A program is another one with one more item that was read. -/
def Adds (tokens : List Token) (p q : Program) : Prop :=
  ∃ i : Item, i.Read tokens ∧ i.add? p = some q

theorem judged_braceOpen : Judged tokens (Left n) (do
    expectSymbol .curlyLeft
    advance) fun _ => Left n :=
  judged_expectSymbol.bind fun _ => judged_advance_on

theorem judged_blockOpen : Judged tokens (On (n + 1)) blockOpen fun _ => Left n :=
  .skip <| judged_braceOpen

theorem judged_blockItems {item : Parser α} {V : α → Prop}
    (hitem : ∀ j, Judged tokens (Left (j + 1)) item fun a c => c.Left j ∧ V a) :
    Judged tokens (Left n) (blockItems item) fun as c => c.Left n ∧ ∀ a ∈ as, V a := by
  have hseparated : ∀ j < n, Judged tokens (On (j + 1)) (do
      let a ← item
      skipAll .semicolon
      return a) fun a c => c.Left j ∧ V a := by
    intro j _
    refine (hitem j).ofOn.bindValue fun a ha => ?_
    exact judged_skipAll.bind fun _ => .give ha
  refine (judged_untilSymbol hseparated).bindValue fun items hitems => ?_
  refine judged_advance_on.bind fun _ => ?_
  exact .give hitems

theorem judged_once {taken : Bool} {k : Keyword} {block : Parser Program} (ht : t ∈ tokens)
    (h : taken = false → Judged tokens (On (n + 1)) block fun q c => c.Left n ∧ Adds tokens p q) :
    Judged tokens (On (n + 1)) (if taken then failAt t.area (.repeatedBlock k) else block) fun q c =>
      c.Left n ∧ Adds tokens p q :=
  .ite (fun _ => .failAt rfl fun _ _ _ => (Token.among_area ht).touches)
    fun hfree => h (Bool.eq_false_iff.2 hfree)

theorem judged_publicBlock (ht : t ∈ tokens) :
    Judged tokens (On (n + 1)) (publicBlock p t) fun q c => c.Left n ∧ Adds tokens p q := by
  refine judged_once ht fun hfree => judged_blockOpen.bind fun _ => ?_
  have hentry : ∀ j, Judged tokens (Left (j + 1)) (expr (.ofSymbols [.semicolon, .curlyRight]))
      fun e c => c.Left j ∧ e.Shaped tokens :=
    fun j => (judged_expr _).post fun _ _ h => ⟨h.1.left, h.2⟩
  refine (judged_blockItems hentry).bindValue fun es hes => .pure fun _ _ h => ⟨h, ?_⟩
  exact ⟨.entries es, ⟨trivial, hes⟩, by simp [Item.add?, Item.taken, Item.put, hfree]⟩

theorem judged_tickerBlock (ht : t ∈ tokens) :
    Judged tokens (On (n + 1)) (tickerBlock p t) fun q c => c.Left n ∧ Adds tokens p q := by
  refine judged_once ht fun hfree => .skip <| judged_atSymbol.bind fun _ => ?_
  have hadd : ∀ ticker, Item.add? p (.ticker ticker) = some { p with ticker := some ticker } := by
    simp [Item.add?, Item.taken, Item.put, hfree]
  refine .ite (fun _ => ?_) fun _ => ?_
  · refine judged_advance_on.bind fun _ => ?_
    refine (judged_expr _).bindValue fun interval hinterval => ?_
    refine (judged_advance_left.pre fun _ h => h.left.mono (Nat.sub_le n 1)).bind fun _ => ?_
    refine (judged_action false).bindValue fun a ha => .pure fun _ _ h => ⟨h, ?_⟩
    exact ⟨.ticker ⟨some interval, a⟩,
      ⟨trivial, fun _ heq => Option.some.inj heq ▸ hinterval, ha⟩, hadd _⟩
  · refine (judged_action false).ofOn.bindValue fun a ha => ?_
    exact .pure fun _ _ h => ⟨h, .ticker ⟨none, a⟩, ⟨trivial, by simp, ha⟩, hadd _⟩

theorem judged_displayBlock (ht : t ∈ tokens) :
    Judged tokens (On (n + 1)) (displayBlock p t) fun q c => c.Left n ∧ Adds tokens p q := by
  refine judged_once ht fun hfree => judged_blockOpen.bind fun _ => ?_
  refine (judged_blockItems fun _ => judged_element).bindValue fun es hes => ?_
  refine .pure fun _ _ h => ⟨h, .display es, ⟨trivial, hes⟩, ?_⟩
  simp [Item.add?, Item.taken, Item.put, hfree]

theorem judged_actionDecl :
    Judged tokens (On (n + 1)) (actionDecl p) fun q c => c.Left n ∧ Adds tokens p q := by
  refine .skip <| judged_nameToken.bindValue fun (t, name) hname => ?_
  refine judged_params.bindValue fun ps hps => (judged_action false).bindValue fun body hbody => ?_
  refine (judged_declare hname.1).bindValue fun q ⟨hfree, hq⟩ => .pure fun _ _ h => ⟨h, ?_⟩
  subst hq
  exact ⟨.action { Signature.plain .action name ps with ty := .action name, area := t.area } body,
    ⟨⟨rfl, hname.2, .inr (.inl rfl), .inr rfl, fun _ => rfl, hps⟩, hbody⟩, if_neg hfree⟩

theorem judged_valueDecl {declares : Declares} (hvalue : declares.isValue) :
    Judged tokens (On (n + 1)) (valueDecl p declares) fun q c => c.Left n ∧ Adds tokens p q := by
  refine .skip <| judged_nameToken.bindValue fun (t, name) hname => ?_
  refine judged_params.bindValue fun ps hps => ?_
  refine judged_declaredTy.bindValue fun declared hdeclared => ?_
  refine judged_definition.bindValue fun value hbody => ?_
  refine (judged_declare hname.1).bindValue fun q ⟨hfree, hq⟩ => .pure fun _ _ h => ⟨h, ?_⟩
  subst hq
  refine ⟨.value { Signature.plain declares name ps with ty := declared, area := t.area } value,
    ⟨⟨hvalue, hname.2, .inl hvalue, hdeclared.mono fun _ => .inl, fun hother => ?_, hps⟩, hbody⟩,
    if_neg hfree⟩
  simp [Signature.plain, hvalue] at hother

theorem judged_varDecl :
    Judged tokens (On (n + 1)) (varDecl p) fun q c => c.Left n ∧ Adds tokens p q := by
  refine .skip <| judged_atKeyword.bind fun timer => ?_
  refine .when judged_advance_on (fun _ hon => hon.left)
    fun _ => judged_nameToken.bindValue fun (t, name) hname => judged_advance_left.bind fun _ => ?_
  refine judged_declaredTy.bindValue fun declared hdeclared => ?_
  refine judged_definition.bindValue fun value hbody => ?_
  refine (judged_declare hname.1).bindValue fun q ⟨hfree, hq⟩ => .pure fun _ _ h => ⟨h, ?_⟩
  subst hq
  exact ⟨.value { Signature.plain .var name none with
      ty := declared, timer := timer, area := t.area } value,
    ⟨⟨rfl, hname.2, .inl rfl, hdeclared.mono fun _ => .inl, nofun, fun q hq => by cases hq⟩,
      hbody⟩, if_neg hfree⟩

theorem judged_enumDecl :
    Judged tokens (On (n + 1)) (enumDecl p) fun q c => c.Left n ∧ Adds tokens p q := by
  have hvariant : ∀ j < n, Judged tokens (On (j + 1)) variant fun _ c => c.Left j ∧ True := by
    intro j _
    refine judged_expectName.ofOn.bindValue fun name _ => ?_
    refine .skip <| judged_expectOneOf.bind fun _ => ?_
    refine judged_skipSymbol.ofOn.bind fun _ => ?_
    exact .give trivial
  refine .skip <| judged_nameToken.bindValue fun (t, name) hname => ?_
  refine (judged_advance_left.bind fun _ => judged_braceOpen).bind fun _ => ?_
  refine (judged_untilSymbol hvariant).bindValue fun variants _ => ?_
  refine judged_advance_on.bind fun _ => ?_
  refine (judged_declare hname.1).bindValue fun q ⟨hfree, hq⟩ => .pure fun _ _ h => ⟨h, ?_⟩
  subst hq
  exact ⟨.enum { Signature.plain .enum name none with
      ty := .user name, variants := variants, area := t.area } variants,
    ⟨⟨rfl, hname.2, .inr (.inr rfl), .inl ⟨_, rfl⟩, fun _ => rfl, fun q hq => by cases hq⟩,
      trivial⟩, if_neg hfree⟩

theorem judged_item :
    Judged tokens (On (n + 1)) (item p) fun q c => c.Left n ∧ Adds tokens p q := by
  refine judged_expectOneOf.ofOn.bind fun _ => ?_
  refine judged_token_on.bind fun t => ?_
  refine judged_of_imp (fun _ hc ht => hc.mem ht) fun ht => Judged.pre ?_ fun _ h => h.on
  split
  · exact judged_publicBlock ht
  · exact judged_tickerBlock ht
  · exact judged_displayBlock ht
  · exact judged_actionDecl
  · exact judged_valueDecl rfl
  · exact judged_valueDecl rfl
  · exact judged_varDecl
  · exact judged_enumDecl
  · exact .skip <| .pure fun _ _ h => ⟨h, .blank, ⟨trivial, trivial⟩, rfl⟩

theorem judged_items (hfuel : n < fuel) (h : p.WellMade tokens) (hread : p.Read tokens) :
    Judged tokens (Left n) (items fuel p) fun q _ => q.WellMade tokens ∧ q.Read tokens := by
  induction fuel generalizing n p with
  | zero => omega
  | succ fuel ih =>
    intro c hc hleft
    have hnext : Judged tokens (On n) (item p >>= fun q => items fuel q) fun q _ =>
        q.WellMade tokens ∧ q.Read tokens := by
      refine .on fun k hk => judged_item.bindValue fun q ⟨i, hi, hadd⟩ => ?_
      obtain ⟨-, heq⟩ := Option.ite_none_left_eq_some.1 hadd
      cases heq
      exact ih (by omega) (h.add hi.1 hadd) (hread.put hi.2)
    unfold items
    rw [run_get_bind]
    cases hrest : c.rest with
    | nil =>
      rw [if_pos (by simp [isDone, hrest])]
      exact ⟨hc, h, hread⟩
    | cons t ts =>
      rw [if_neg (by simp [isDone, hrest])]
      exact hnext c hc ⟨t, hleft, by simp [hrest]⟩

end Programs

end Diagram.Parser

namespace Diagram.Program

variable {tokens : List Token} {p : Program}

/-- Some tokens write a program that is made as it should be, or one of them is refused. -/
theorem parse_outcome (tokens : List Token) :
    (∃ p, Program.parse tokens = .ok p ∧ p.WellMade tokens ∧ p.Read tokens) ∨
      ∃ e, Program.parse tokens = .error e ∧ Parser.Refuses tokens e := by
  cases tokens with
  | nil => exact .inl ⟨.empty, rfl, wellMade_empty, read_empty⟩
  | cons t ts =>
    have hover : (Cursor.ofTokens (t :: ts)).Over (t :: ts) := by
      refine ⟨List.Subset.refl _, _, List.getLast_mem (List.cons_ne_nil t ts), ?_⟩
      simp [Cursor.ofTokens, List.getLast?_eq_some_getLast]
    have hjudged : Parser.Judged (t :: ts) (Cursor.Left (t :: ts).length) Parser.program
        fun q _ => q.WellMade (t :: ts) ∧ q.Read (t :: ts) :=
      Parser.judged_budget (Parser.items · .empty) fun j _ =>
        Parser.judged_items (Nat.lt_succ_self j) wellMade_empty read_empty
    have hrun := hjudged _ hover (Nat.le_refl _)
    unfold parse
    cases hresult : Parser.program.run (.ofTokens (t :: ts)) with
    | ok p d =>
      rw [hresult] at hrun
      exact .inl ⟨p, rfl, hrun.2⟩
    | error e d =>
      rw [hresult] at hrun
      exact .inr ⟨e, rfl, hrun⟩

/-- Tokens that write no program are refused where one of them starts or stops. -/
theorem touches_of_parse_eq_error {e : Located Parser.Cause}
    (h : Program.parse tokens = .error e) : e.area.Touches tokens := by
  obtain ⟨p, hp, -⟩ | ⟨e', he', hrefuses⟩ := parse_outcome tokens
  · cases h.symm.trans hp
  · cases h.symm.trans he'
    exact hrefuses.touches

variable (h : Program.parse tokens = .ok p)

include h

theorem made_of_parse : p.WellMade tokens ∧ p.Read tokens := by
  obtain ⟨q, hq, hmade⟩ | ⟨e, he, -⟩ := parse_outcome tokens
  · cases h.symm.trans hq
    exact hmade
  · cases h.symm.trans he

theorem wellMade_of_parse : p.WellMade tokens :=
  (made_of_parse h).1

theorem shaped_of_parse : p.Shaped tokens :=
  (made_of_parse h).1.shaped (made_of_parse h).2

end Diagram.Program
