import Diagram.Proofs.Parser.Takes

/-!
# Printed actions and elements

The words of a declaration, an action or an element are read as what they were printed from, but
for its places in a source.  Each parser has one lemma, which says what it takes of the words of
its part; the loops follow how the words are put together.

Main statements: `takes_action`, `takes_element`.
-/

namespace Diagram

open List Option Expr

namespace Action

theorem unplacedOf_eq_map (as : List Action) : unplacedOf as = as.map unplaced := by
  induction as with
  | nil => rfl
  | cons a as ih => rw [unplacedOf, ih, map_cons]

/-- Braces around a single action are dropped, wherever that stands. -/
theorem unplaced_ofList (as : List Action) : (ofList as).unplaced = ofList (as.map unplaced) := by
  match as with
  | [] => simp [ofList, unplaced, unplacedOf]
  | [a] => rfl
  | a :: b :: as => simp [ofList, unplaced, unplacedOf_eq_map]

end Action

theorem Expr.exists_of_unplaced_eq {e : Expr} {info : Info} {op : Operation} {operands : List Expr}
    (h : e.unplaced = (operator info op operands).unplaced) :
    ∃ info' operands', e = .operator info' op operands' ∧
      operands'.map unplaced = operands.map unplaced := by
  cases e with
  | operator info' op' operands' =>
    simp only [unplaced_operator, operator.injEq] at h
    obtain ⟨-, rfl, heq⟩ := h
    exact ⟨info', operands', rfl, heq⟩
  | _ => simp [unplaced] at h

namespace Parser

variable {ls ms rest : List Lexeme} {l : Lexeme}

section Declarations

theorem takes_tyItem {item : Ty} {f : Ty → Parser Ty} {P : Ty → Prop} (h : item.Named l)
    (hf : Takes (f item) (l :: ls) rest P) :
    Takes (do
      let item ← if ← atSymbol .question then pure Ty.unknown else Ty.ofName <$> expectName
      f item) (l :: ls) rest P := by
  cases h with
  | unknown => exact takes_ifSymbol ((Takes.pure rfl).bind fun _ heq => heq ▸ hf)
  | @name n =>
    refine takes_elseSymbol (by simp) ?_
    refine (takes_expectName.bind fun n' hn => .pure (P := (· = Ty.ofName n)) ?_).bind
      fun _ heq => heq ▸ hf
    rw [hn]

variable {ty' : Ty}

theorem takes_ty {ends : Ends} (h : ty'.Prints ls) (hl : ends.contains l) :
    Takes (ty ends) (ls ++ l :: rest) (l :: rest) (· = ty') := by
  cases h with
  | @item _ w hname =>
    have hbracket : w ≠ .symbol .squareLeft := by cases hname <;> simp
    refine takes_atSymbol.bind fun isList hlist => ?_
    have hfalse : ¬isList = true := by simpa [hlist] using hbracket
    refine .neg hfalse (takes_tyItem hname (.skip ?_))
    refine .neg hfalse ((takes_expectOneOf hl).bind fun _ _ => .pure ?_)
    rw [if_neg hfalse]
  | list hname =>
    refine takes_atSymbol.bind fun isList hlist => ?_
    have htrue : isList = true := by simp [hlist]
    refine .pos htrue (.skip ?_)
    refine takes_tyItem hname (.skip <| .pos htrue ?_)
    refine takes_expectSymbol.bind fun _ _ => .skip ?_
    refine (takes_expectOneOf hl).bind fun _ _ => .pure ?_
    rw [if_pos htrue]

theorem takesItem_param {q : Param} (h : q.Prints ls) :
    TakesItem .comma .parenRight param id ls q := by
  refine takesItem_of_skipped (by decide) ?_ fun l rest hl => ?_
  · cases h <;> exact ⟨_, _, rfl, by simp, by simp⟩
  · cases h with
    | untyped =>
      refine takes_expectName.bind fun name hname => .skip ?_
      refine (takes_expectOneOf ?_).bind fun _ _ => takes_seesSymbol.bind fun b hb => ?_
      · rcases hl with rfl | rfl <;> rfl
      · have hcolon : ¬b = true := by rcases hl with rfl | rfl <;> simp [hb]
        refine .neg hcolon ((takes_skipSymbol _).bind fun _ _ => .pure ?_)
        rw [hname]
    | typed ht =>
      refine takes_expectName.bind fun name hname => .skip ?_
      refine (takes_expectOneOf rfl).bind fun _ _ => ?_
      refine takes_seesSymbol.bind fun b hb => .pos (by simp [hb]) ?_
      refine .skip <| (takes_ty ht ?_).bind fun t' ht' => ?_
      · rcases hl with rfl | rfl <;> rfl
      · refine (takes_skipSymbol _).bind fun _ _ => .pure ?_
        rw [hname, ht']

theorem takes_params {name : Lexeme} {ps : Option (List Param)} (h : ParamsPrint ps ls)
    (hl : l ≠ .symbol .parenLeft) :
    Takes params (name :: (ls ++ l :: rest)) (l :: rest) (· = ps) := by
  refine .skip ?_
  cases h with
  | none => exact takes_elseSymbol hl (.pure rfl)
  | some hps =>
    simp only [append_assoc, cons_append, nil_append]
    refine takes_ifSymbol (.skip ?_)
    refine (takes_untilSymbol (by decide) takesItem_param hps).bind
      fun ps' hps' => .skip <| .pure ?_
    rw [List.map_id, List.map_id] at hps'
    rw [hps']

/-- The declared type of a name, with the equals sign. -/
theorem takes_declaredTy (h : DeclaredPrints ty' ls) :
    Takes declaredTy (ls ++ rest) rest (· = ty') := by
  cases h with
  | none =>
    refine takes_elseSymbol (by simp) ?_
    exact takes_expectSymbol.bind fun _ _ => .skip <| .pure rfl
  | some hty =>
    simp only [append_assoc, cons_append, nil_append]
    refine takes_ifSymbol (.skip ?_)
    exact (takes_ty hty rfl).bind fun t' ht' => .skip <| .pure ht'

theorem takes_definition {e : Expr} (he : e.Prints ls) :
    Takes definition (ls ++ .symbol .semicolon :: rest) rest fun e' => e'.unplaced = e.unplaced :=
  (takes_expr rfl he rfl).bind fun _ he' => .skip <| .pure he'

theorem takesItem_variant {n : String} (h : VariantPrints n ls) :
    TakesItem .comma .curlyRight variant id ls n := by
  cases h with
  | name =>
    refine takesItem_of_skipped (by decide) ⟨_, [], rfl, by simp, by simp⟩ fun l rest hl => ?_
    refine takes_expectName.bind fun name hname => .skip ?_
    refine (takes_expectOneOf ?_).bind fun _ _ => (takes_skipSymbol _).bind fun _ _ =>
      .pure hname
    rcases hl with rfl | rfl <;> rfl

end Declarations

section Actions

/-- A word that does not go on with the line before it. -/
structure Breaks (l : Lexeme) : Prop where
  comma : l ≠ .symbol .comma
  elif : l ≠ .keyword .elifCond
  otherwise : l ≠ .keyword .elseCond

theorem breaks_curlyRight : Breaks (.symbol .curlyRight) := by
  constructor <;> simp

/-- What a parser of nested actions reads of less than `n` words. -/
structure TakesNested (nested : Parser Action) (n : Nat) : Prop where
  braced : ∀ {a : Action} {ls : List Lexeme} (rest : List Lexeme), ls.length < n → a.Prints ls →
    Takes nested (ls ++ rest) rest fun a' => a'.unplaced = a.unplaced
  inline : ∀ {a : Action} {ls : List Lexeme} {l : Lexeme} (rest : List Lexeme), ls.length < n →
    InlinePrints a ls → ls.head? ≠ some (.symbol .curlyLeft) → actionEnds.contains l = true →
    Takes nested (ls ++ l :: rest) (l :: rest) fun a' => a'.unplaced = a.unplaced

variable {a : Action}

/-- An update or a call is read from the words of the operation. -/
theorem takes_inlineAction (h : InlinePrints a ls) (hl : actionEnds.contains l) :
    Takes inlineAction (ls ++ l :: rest) (l :: rest) fun a' => a'.unplaced = a.unplaced := by
  cases h with
  | update h =>
    refine (takes_expr rfl h hl).bind fun e he => ?_
    obtain ⟨info, operands, rfl, heq⟩ := exists_of_unplaced_eq he
    obtain ⟨target, rest, rfl, htarget, hrest⟩ := map_eq_cons_iff.1 heq
    obtain ⟨value, rest, rfl, hvalue, hnil⟩ := map_eq_cons_iff.1 hrest
    obtain rfl := map_eq_nil_iff.1 hnil
    refine .pure ?_
    rw [Action.unplaced, Action.unplaced, htarget, hvalue]
  | call h =>
    refine (takes_expr rfl h hl).bind fun e he => ?_
    obtain ⟨info, operands, rfl, heq⟩ := exists_of_unplaced_eq he
    obtain ⟨callee, args, rfl, hcallee, hargs⟩ := map_eq_cons_iff.1 heq
    refine .pure ?_
    simp only [Action.unplaced, unplacedOf_eq_map, hcallee, hargs]

theorem InlinePrints.starts (h : InlinePrints a ls) : ∃ l us, ls = l :: us ∧ l.starts := by
  cases h with
  | update h | call h => exact exists_starts h

theorem exists_breaks {b : Bool} (h : LinePrints Action.Prints a b ls) :
    ∃ l us, ls = l :: us ∧ Breaks l ∧ l ≠ .symbol .curlyRight := by
  cases h with
  | inline h =>
    obtain ⟨l, us, rfl, hl⟩ := InlinePrints.starts h
    exact ⟨l, us, rfl, ⟨ne_of_starts hl rfl, ne_of_starts hl rfl, ne_of_starts hl rfl⟩,
      ne_of_starts hl rfl⟩
  | braced h =>
    cases h with
    | braces => exact ⟨_, _, rfl, by constructor <;> simp, by simp⟩
  | conditional harms _ =>
    cases harms with
    | cons => exact ⟨_, _, rfl, by constructor <;> simp, by simp⟩

section Nested

variable {nested : Parser Action} {n : Nat} {arms : List (Expr × Action)} {after : List Lexeme}
  {actions : List Action}

variable (hnested : TakesNested nested n)

include hnested

theorem takes_branch (h : a.Prints ls) (hn : ls.length < n) :
    Takes (branch nested) (ls ++ rest) (skipped .comma rest) fun a' => a'.unplaced = a.unplaced :=
  (hnested.braced rest hn h).bind fun _ ha => (takes_skipSymbol _).bind fun _ _ => .pure ha

/-- The branches of a conditional are read up to a word that does not go on with them.  The
induction is on how they are printed; a comma is skipped behind the last of them. -/
theorem takes_branches {k : Keyword} (h : BranchesPrint Action.Prints k arms ls)
    (hn : ls.length < n) (fuel : Nat) (hfuel : ls.length < fuel) (hk : k = .elifCond ∨ arms ≠ [])
    (hafter : skipped .comma after = l :: rest) (hl : l ≠ .keyword .elifCond) :
    Takes (branches nested fuel k) (skipped .comma (ls ++ after)) (l :: rest)
      fun arms' => Action.unplacedBranches arms' = Action.unplacedBranches arms := by
  induction h generalizing fuel with
  | nil =>
    obtain _ | fuel := fuel
    · omega
    obtain rfl : _ = Keyword.elifCond := by simpa using hk
    rw [nil_append, hafter]
    exact takes_elseKeyword hl (.pure rfl)
  | @cons k cond body arms ls ls₁ ls₂ hcond hbody harms ih =>
    obtain _ | fuel := fuel
    · omega
    simp only [length_cons, length_append] at hn hfuel
    simp only [cons_append, append_assoc]
    refine takes_ifKeyword (.skip ?_)
    refine (takes_expr rfl hcond rfl).bind fun cond' hcond' => .skip ?_
    refine (takes_branch hnested hbody (by omega)).bind fun body' hbody' => ?_
    have hrest := ih (by omega) fuel (by omega) (.inl rfl)
    refine hrest.bind fun arms' harms' => .pure ?_
    rw [Action.unplacedBranches, Action.unplacedBranches, hcond', hbody', harms']

variable {arm : Expr × Action}

omit hnested in
theorem head_of_branches {k : Keyword} (h : BranchesPrint Action.Prints k (arm :: arms) ls) :
    ∃ us, ls = .keyword k :: us := by
  cases h with
  | cons => exact ⟨_, rfl⟩

/-- The branches of a conditional and what follows them, in a loop with a turn for every word. -/
theorem takes_armsBind {β : Type} {f : List (Expr × Action) → Parser β} {P : β → Prop}
    (harms : BranchesPrint Action.Prints .ifCond (arm :: arms) ls) (hn : ls.length < n)
    (hafter : skipped .comma after = l :: ms) (hl : l ≠ .keyword .elifCond)
    (hf : ∀ arms', Action.unplacedBranches arms' = Action.unplacedBranches (arm :: arms) →
      Takes (f arms') (l :: ms) rest P) :
    Takes (get >>= fun c => branches nested c.budget .ifCond >>= f) (ls ++ after) rest P := by
  refine takes_budget (fun fuel => branches nested fuel .ifCond >>= _) ?_
  have hfuel : ls.length < (ls ++ after).length + 1 := by
    rw [length_append]
    omega
  have hread := takes_branches hnested harms hn _ hfuel (.inr (by simp)) hafter hl
  obtain ⟨us, rfl⟩ := head_of_branches harms
  exact hread.bind hf

/-- A conditional is read up to a word that does not go on with it. -/
theorem takes_ifChain {cond : Expr} {body default : Action}
    (harms : BranchesPrint Action.Prints .ifCond ((cond, body) :: arms) ls)
    (hdefault : DefaultPrints Action.Prints default ms) (hn : (ls ++ ms).length < n)
    (hafter : skipped .comma after = l :: rest) (hl : Breaks l) :
    Takes (ifChain nested) (ls ++ ms ++ after) (l :: rest)
      fun a => a.unplaced = (Action.conditional ((cond, body) :: arms) default).unplaced := by
  rw [length_append] at hn
  cases hdefault with
  | hole =>
    rw [append_nil]
    refine takes_armsBind hnested harms (by omega) hafter hl.elif fun arms' harms' => ?_
    refine takes_seesKeyword.bind fun b hb => .neg (by simp [hb, hl.otherwise]) ?_
    refine .pure ?_
    simp only [Action.unplaced, harms']
  | action ha =>
    simp only [length_cons] at hn
    rw [append_assoc]
    refine takes_armsBind hnested harms (by omega) (skipped_of_ne (by simp)) (by simp)
      fun arms' harms' => ?_
    refine takes_seesKeyword.bind fun b hb => .pos (by simp [hb]) ?_
    refine .skip <| takes_expectSymbol.bind fun _ _ => ?_
    refine .skip ?_
    rw [← hafter]
    refine (takes_branch hnested ha (by omega)).bind fun a' ha' => .pure ?_
    rw [Action.unplaced, Action.unplaced, harms', ha']

/-- One action of a block is read up to the word behind the comma that may follow it. -/
theorem takes_blockItem {b : Bool} (h : LinePrints Action.Prints a b ls) (hn : ls.length < n)
    (hafter : skipped .comma after = l :: rest) (hl : Breaks l)
    (hends : b → ∃ u us, after = u :: us ∧ actionEnds.contains u) :
    Takes (blockItem nested) (ls ++ after) (l :: rest) fun a' => a'.unplaced = a.unplaced := by
  cases h with
  | inline h hbrace =>
    obtain ⟨u, us, rfl, hu⟩ := hends rfl
    have hread := hnested.inline us hn h hbrace hu
    obtain ⟨w, ws, rfl, hw⟩ := InlinePrints.starts h
    have hif : w ≠ .keyword .ifCond := ne_of_starts hw rfl
    refine takes_seesKeyword.bind fun b hb => .neg (by simp [hb, hif]) ?_
    refine hread.bind fun a' ha' => (takes_skipSymbol _).bind fun _ _ => ?_
    rw [hafter]
    exact .pure ha'
  | braced h =>
    have hread := hnested.braced after hn h
    cases h with
    | braces =>
      refine takes_seesKeyword.bind fun b hb => .neg (by simp [hb]) ?_
      refine hread.bind fun a' ha' => (takes_skipSymbol _).bind fun _ _ => ?_
      rw [hafter]
      exact .pure ha'
  | conditional harms hdefault =>
    have hread := takes_ifChain hnested harms hdefault hn hafter hl
    obtain ⟨us, rfl⟩ := head_of_branches harms
    refine takes_seesKeyword.bind fun b hb => .pos (by simp [hb]) ?_
    refine hread.bind fun a' ha' => (takes_skipSymbol _).bind fun _ _ => ?_
    rw [skipped_of_ne hl.comma]
    exact .pure ha'

omit hnested

theorem exists_breaks_append (h : LinesPrint Action.Prints actions ls) (rest : List Lexeme) :
    ∃ l us, ls ++ .symbol .curlyRight :: rest = l :: us ∧ Breaks l := by
  cases h with
  | nil => exact ⟨_, rest, rfl, breaks_curlyRight⟩
  | last ha | cons ha _ | next ha _ =>
    obtain ⟨l, us, rfl, hl, -⟩ := exists_breaks ha
    exact ⟨l, _, rfl, hl⟩

/-- The lines of a block are read up to the closing brace.  The induction is on how they follow
one another. -/
theorem takesAll_lines (hnested : TakesNested nested n) (h : LinesPrint Action.Prints actions ls)
    (hn : ls.length < n) :
    TakesAll .curlyRight (blockItem nested) Action.unplaced (ls ++ .symbol .curlyRight :: rest)
      (.symbol .curlyRight :: rest) actions := by
  induction h with
  | nil => exact takesAll_nil
  | last ha =>
    have hread := takes_blockItem hnested ha hn (skipped_of_ne breaks_curlyRight.comma)
      breaks_curlyRight fun _ => ⟨_, rest, rfl, rfl⟩
    obtain ⟨l, us, rfl, -, hl⟩ := exists_breaks ha
    exact takesAll_cons hl hread (by simp) takesAll_nil
  | cons ha has ih =>
    obtain ⟨u, ws, hrest, hu⟩ := exists_breaks_append has rest
    simp only [length_append, length_cons] at hn
    have hread := takes_blockItem hnested ha (by omega) (skipped_symbol.trans hrest) hu fun _ =>
      ⟨_, _, rfl, rfl⟩
    obtain ⟨l, us, rfl, -, hl⟩ := exists_breaks ha
    simp only [append_assoc, cons_append, ← hrest] at hread ⊢
    exact takesAll_cons hl hread (by simp; omega) (ih (by omega))
  | next ha has ih =>
    obtain ⟨u, ws, hrest, hu⟩ := exists_breaks_append has rest
    simp only [length_append] at hn
    have hafter : skipped .comma (u :: ws) = u :: ws := skipped_of_ne hu.comma
    have hread := takes_blockItem hnested ha (by omega) hafter hu nofun
    obtain ⟨l, us, rfl, -, hl⟩ := exists_breaks ha
    simp only [append_assoc, cons_append, ← hrest] at hread ⊢
    exact takesAll_cons hl hread (by simp) (ih (by omega))

/-- Braces are read with the actions between them. -/
theorem takes_actionWith (hnested : TakesNested nested n) (allowInline : Bool) (h : a.Prints ls)
    (hn : ls.length < n + 1) :
    Takes (actionWith nested allowInline) (ls ++ rest) rest fun a' => a'.unplaced = a.unplaced := by
  cases h with
  | braces hlines =>
    simp only [length_append, length_cons, length_nil] at hn
    simp only [append_assoc, cons_append, nil_append]
    refine takes_ifSymbol (.skip ?_)
    refine (takesAll_lines hnested hlines (by omega)).takes.bind fun actions' heq => ?_
    refine .skip <| .pure ?_
    rw [Action.unplaced_ofList, Action.unplaced_ofList, heq]

end Nested

/-- Actions of less than `n` words do not nest `n` levels deep. -/
theorem takesNested_actionWithin (n : Nat) : TakesNested (actionWithin n true) n := by
  induction n with
  | zero => exact ⟨fun _ hn => (Nat.not_lt_zero _ hn).elim, fun _ hn => (Nat.not_lt_zero _ hn).elim⟩
  | succ n ih =>
    refine ⟨fun rest hn h => takes_actionWith ih true h hn, fun {a ls l} rest _ h hbrace hl => ?_⟩
    have hread : Takes inlineAction (ls ++ l :: rest) (l :: rest)
        fun a' => a'.unplaced = a.unplaced := takes_inlineAction h hl
    obtain ⟨w, us, rfl, -⟩ := InlinePrints.starts h
    exact takes_elseSymbol (fun heq => hbrace (congrArg some heq)) (.pos rfl hread)

theorem takes_action (allowInline : Bool) (h : a.Prints ls) :
    Takes (action allowInline) (ls ++ rest) rest fun a' => a'.unplaced = a.unplaced := by
  refine takes_budget (actionWithin · allowInline) ?_
  refine takes_actionWith (takesNested_actionWithin _) allowInline h ?_
  rw [length_append]
  omega

end Actions

section Elements

theorem takes_attributeArgs {name text : String} {args : List Expr} {low high : Nat}
    (h : ArgumentsPrint name args ls) (hlow : low ≤ args.length) (hhigh : args.length ≤ high) :
    Takes (attributeArgs text low high) (ls ++ rest) rest
      fun args' => args'.map unplaced = args.map unplaced := by
  cases h with
  | parens hargs =>
    simp only [append_assoc, cons_append, nil_append]
    refine takes_token.bind fun _ _ => .skip ?_
    refine (takes_call hargs).bind fun args' hargs' => ?_
    refine takes_token.bind fun _ _ => .skip <| .neg ?_ ?_
    · have hlength : args'.length = args.length := by simpa using congrArg List.length hargs'
      omega
    · exact .pure hargs'

section Arguments

variable {args args' : List Expr} (h : args'.map unplaced = args.map unplaced)
include h

variable {i : Nat} {e : Expr} {s : String}

theorem exists_argument (hi : args[i]? = some e) :
    ∃ e', args'[i]? = some e' ∧ e'.unplaced = e.unplaced := by
  have hget : (args'.map unplaced)[i]? = some e.unplaced := by
    rw [h, getElem?_map, hi, map_some]
  rw [getElem?_map] at hget
  exact map_eq_some_iff.1 hget

theorem argumentOr_unplaced (hi : args[i]? = some e) (x : Float) :
    (argumentOr args' i x).map unplaced = some e.unplaced := by
  obtain ⟨e', he', heq⟩ := exists_argument h hi
  rw [argumentOr, he', getD_some, map_some, heq]

theorem takes_constantString (hi : args[i]? = some (.string s)) (ls : List Lexeme) :
    ∃ e', args'[i]? = some e' ∧ Takes (constantString e') ls ls (· = s) := by
  obtain ⟨e', he', heq⟩ := exists_argument h hi
  have hstr : e'.str? = some s := by
    cases e' with
    | literal info v =>
      simp only [string, constant, unplaced, literal.injEq] at heq
      rw [heq.2]
      rfl
    | _ => simp [string, constant, unplaced] at heq
  refine ⟨e', he', ?_⟩
  rw [constantString, hstr]
  exact .pure rfl

theorem takes_choiceOr {α : Type} {a default : α} {options : List α} {text : α → String}
    (hi : args[i]? = some (.string (text a))) (ha : options.find? (text · == text a) = some a) :
    Takes (choiceOr args' i options text default) ls ls (· = a) := by
  obtain ⟨e', he', hstring⟩ := takes_constantString h hi ls
  rw [choiceOr, he']
  refine hstring.bind fun s hs => ?_
  rw [hs, ha]
  exact .pure rfl

theorem takes_firstText (hi : args[0]? = some (.string s)) :
    Takes (firstText args') ls ls (· = s) := by
  obtain ⟨e', he', hstring⟩ := takes_constantString h hi ls
  cases args' with
  | nil => cases he'
  | cons e es =>
    obtain rfl : e = e' := Option.some.inj he'
    exact hstring

end Arguments

section Attributes

variable {size width opacity scale angle : Expr} {text : String}

theorem takes_pointAttr {style : PointStyle}
    (h : ArgumentsPrint "point" [size, opacity, .string style.text] ls) :
    Takes pointAttr (ls ++ rest) rest
      fun a => a.unplaced = (PointAttr.mk (some size) (some opacity) style).unplaced := by
  refine (takes_attributeArgs h (by simp) (by simp)).bind fun args hargs => ?_
  refine (takes_choiceOr hargs rfl (by cases style <;> rfl)).bind fun style' hstyle => .pure ?_
  rw [PointAttr.unplaced, argumentOr_unplaced hargs rfl, argumentOr_unplaced hargs rfl, hstyle]
  rfl

theorem takes_strokeAttr {style : StrokeStyle}
    (h : ArgumentsPrint "stroke" [width, opacity, .string style.text] ls) :
    Takes strokeAttr (ls ++ rest) rest
      fun a => a.unplaced = (StrokeAttr.mk (some width) (some opacity) style).unplaced := by
  refine (takes_attributeArgs h (by simp) (by simp)).bind fun args hargs => ?_
  refine (takes_choiceOr hargs rfl (by cases style <;> rfl)).bind fun style' hstyle => .pure ?_
  rw [StrokeAttr.unplaced, argumentOr_unplaced hargs rfl, argumentOr_unplaced hargs rfl, hstyle]
  rfl

theorem takes_fillAttr (h : ArgumentsPrint "fill" [opacity] ls) :
    Takes fillAttr (ls ++ rest) rest fun a => a.unplaced = (FillAttr.mk (some opacity)).unplaced := by
  refine (takes_attributeArgs h (by simp) (by simp)).bind fun args hargs => .pure ?_
  rw [FillAttr.unplaced, argumentOr_unplaced hargs rfl]
  rfl

theorem takes_labelAttr {orientation : Orientation}
    (h : ArgumentsPrint "label"
      [.string text, opacity, scale, angle, .string orientation.text] ls) :
    Takes labelAttr (ls ++ rest) rest fun a => a.unplaced =
      (LabelAttr.mk text (some opacity) (some scale) (some angle) orientation).unplaced := by
  refine (takes_attributeArgs h (by simp) (by simp)).bind fun args hargs => ?_
  refine (takes_firstText hargs rfl).bind fun text' htext => ?_
  refine (takes_choiceOr hargs rfl (by cases orientation <;> rfl)).bind fun o ho => .pure ?_
  rw [LabelAttr.unplaced, argumentOr_unplaced hargs rfl, argumentOr_unplaced hargs rfl,
    argumentOr_unplaced hargs rfl, htext, ho]
  rfl

theorem takes_dragAttr {mode : DragMode}
    (h : ArgumentsPrint "drag" [.string mode.text] ls) :
    Takes dragAttr (ls ++ rest) rest (· = mode) := by
  refine (takes_attributeArgs h (by simp) (by simp)).bind fun args hargs => ?_
  exact takes_choiceOr hargs rfl (by cases mode <;> rfl)

theorem takes_descriptionAttr
    (h : ArgumentsPrint "description" [.string text] ls) :
    Takes descriptionAttr (ls ++ rest) rest (· = text) :=
  (takes_attributeArgs h (by simp) (by simp)).bind fun _ hargs => takes_firstText hargs rfl

end Attributes

variable {e e₁ e' : Element} {P : Element → Prop}

/-- An attribute that an element does not have yet is read and put into it. -/
theorem takes_once {α β : Type} {o o' : Option α} {area : Area} {cause : Cause} {p : Parser β}
    {put : β → Element} {Q : β → Prop} {g : α → α} (hnew : o = none) (ho : o'.map g = o.map g)
    (hp : Takes p ls rest Q) (hput : ∀ a, Q a → P (put a)) :
    Takes ((if o'.isSome then failAt area cause else pure ()) >>= fun _ =>
      p >>= fun a => pure (put a)) ls rest P := by
  have hfree : ¬o'.isSome = true := by simpa [hnew] using ho
  rw [if_neg hfree]
  exact hp.bind fun a ha => .pure (hput a ha)

/-- The first word of an attribute is the name by which the rest is read. -/
def ReadsAttribute (e' : Element) (ls : List Lexeme) (e₁ : Element) : Prop :=
  ∃ us name, ls = .name name :: us ∧ ∀ t rest,
    Takes (readAttribute e' t name) (ls ++ rest) rest fun e'' => e''.unplaced = e₁.unplaced

theorem readsAttribute_of_arguments {name : String} {args : List Expr}
    (h : ArgumentsPrint name args ls)
    (hread : ∀ t rest, Takes (readAttribute e' t name) (ls ++ rest) rest
      fun e'' => e''.unplaced = e₁.unplaced) : ReadsAttribute e' ls e₁ := by
  cases h with
  | parens _ => exact ⟨_, name, rfl, hread⟩

theorem readsAttribute (h : AttributePrints e ls e₁) (he : e'.unplaced = e.unplaced) :
    ReadsAttribute e' ls e₁ := by
  cases h with
  | point hnew hargs =>
    refine readsAttribute_of_arguments hargs fun t rest => ?_
    exact takes_once hnew (congrArg Element.point he) (takes_pointAttr hargs) fun _ =>
      congrArg₂ (fun (u : Element) v => { u with point := some v }) he
  | stroke hnew hargs =>
    refine readsAttribute_of_arguments hargs fun t rest => ?_
    exact takes_once hnew (congrArg Element.stroke he) (takes_strokeAttr hargs) fun _ =>
      congrArg₂ (fun (u : Element) v => { u with stroke := some v }) he
  | fill hnew hargs =>
    refine readsAttribute_of_arguments hargs fun t rest => ?_
    exact takes_once hnew (congrArg Element.fill he) (takes_fillAttr hargs) fun _ =>
      congrArg₂ (fun (u : Element) v => { u with fill := some v }) he
  | label hnew hargs =>
    refine readsAttribute_of_arguments hargs fun t rest => ?_
    exact takes_once hnew (congrArg Element.label he) (takes_labelAttr hargs) fun _ =>
      congrArg₂ (fun (u : Element) v => { u with label := some v }) he
  | drag hnew hargs =>
    refine readsAttribute_of_arguments hargs fun t rest => ?_
    exact takes_once hnew (congrArg (Option.map id ·.drag) he) (takes_dragAttr hargs) fun _ =>
      congrArg₂ (fun (u : Element) v => { u with drag := some v }) he
  | click hnew ha =>
    refine ⟨_, "click", rfl, fun t rest => ?_⟩
    exact takes_once hnew (congrArg Element.click he)
      (.skip <| takes_action false ha) fun _ =>
        congrArg₂ (fun (u : Element) v => { u with click := some v }) he
  | description hnew hargs =>
    refine readsAttribute_of_arguments hargs fun t rest => ?_
    exact takes_once hnew (congrArg (Option.map id ·.description) he) (takes_descriptionAttr hargs)
      fun _ => congrArg₂ (fun (u : Element) v => { u with description := some v }) he

theorem takes_attributes_cons {fuel : Nat} (h : ReadsAttribute e' ls e₁)
    (hl : (Ends.ofSymbols [.comma, .semicolon]).contains l)
    (hrest : ∀ e'', e''.unplaced = e₁.unplaced →
      Takes (attributes fuel e'') (skipped .comma (l :: ms)) rest P) :
    Takes (attributes (fuel + 1) e') (ls ++ l :: ms) rest P := by
  obtain ⟨us, name, rfl, hread⟩ := h
  refine takes_elseSymbol (by simp) (takes_token.bind fun t _ => ?_)
  refine takes_expectName.bind fun name' hname => ?_
  rw [hname]
  refine (hread t _).bind fun e'' he'' => (takes_expectOneOf hl).bind fun _ _ => ?_
  exact (takes_skipSymbol _).bind fun _ _ => hrest e'' he''

/-- Attributes are read up to the semicolon.  The induction is on how they follow one another. -/
theorem takes_attributes (h : AttributesPrint e ls e₁) (fuel : Nat) (hfuel : ls.length < fuel)
    (he : e'.unplaced = e.unplaced) :
    Takes (attributes fuel e') (ls ++ .symbol .semicolon :: rest) (.symbol .semicolon :: rest)
      fun e'' => e''.unplaced = e₁.unplaced := by
  induction h generalizing fuel e' with
  | nil =>
    obtain _ | fuel := fuel
    · omega
    exact takes_ifSymbol (.pure he)
  | last h =>
    have hread := readsAttribute h he
    obtain ⟨us, name, rfl, -⟩ := id hread
    rw [length_cons] at hfuel
    obtain ⟨fuel, rfl⟩ : ∃ m, fuel = m + 2 := ⟨fuel - 2, by omega⟩
    refine takes_attributes_cons hread rfl fun e'' he'' => ?_
    exact takes_ifSymbol (.pure he'')
  | cons h _ ih =>
    simp only [length_append, length_cons] at hfuel
    obtain _ | fuel := fuel
    · omega
    rw [append_assoc]
    refine takes_attributes_cons (readsAttribute h he) rfl fun e'' he'' => ?_
    exact ih fuel (by omega) he''

theorem takes_elementWith {what color : Expr} {us vs ws : List Lexeme} (hwhat : what.Prints us)
    (hcolor : color.Prints vs) (hl : (Ends.ofSymbols [.comma, .semicolon]).contains l)
    (h : AttributesPrint (.plain (some what) (some color)) ws e)
    (hskipped : skipped .comma (l :: ls) = ws ++ .symbol .semicolon :: rest) :
    Takes element (us ++ .symbol .colon :: (vs ++ l :: ls)) (.symbol .semicolon :: rest)
      fun e' => e'.unplaced = e.unplaced := by
  refine (takes_expr rfl hwhat rfl).bind fun what' hwhat' => .skip ?_
  refine (takes_expr rfl hcolor hl).bind fun color' hcolor' => ?_
  refine (takes_skipSymbol _).bind fun _ _ => ?_
  rw [hskipped]
  refine takes_budget (attributes · (.plain (some what') (some color'))) ?_
  refine takes_attributes h _ ?_ ?_
  · rw [length_append]
    omega
  · simp only [Element.unplaced, Element.plain, map_some, hwhat', hcolor']

theorem takes_element (h : e.Prints ls) :
    Takes element (ls ++ .symbol .semicolon :: rest) (.symbol .semicolon :: rest)
      fun e' => e'.unplaced = e.unplaced := by
  cases h with
  | plain hwhat hcolor =>
    rw [append_assoc]
    exact takes_elementWith hwhat hcolor rfl .nil (skipped_of_ne (by simp))
  | attributes hwhat hcolor h =>
    simp only [append_assoc, cons_append]
    exact takes_elementWith hwhat hcolor rfl h skipped_symbol

theorem exists_starts_element (h : e.Prints ls) : ∃ l us, ls = l :: us ∧ l.starts := by
  cases h with
  | plain hwhat _ | attributes hwhat _ _ =>
    obtain ⟨l, us, rfl, hl⟩ := exists_starts hwhat
    exact ⟨l, _, rfl, hl⟩

end Elements

section Blocks

variable {s : Symbol}

theorem takes_skipAllIn_of_ne (hl : l ≠ .symbol s) (fuel : Nat) :
    Takes (skipAllIn s (fuel + 1)) (l :: ls) (l :: ls) fun _ => True :=
  takes_seesSymbol.bind fun _ hb => .neg (by simp [hb, hl]) (.pure trivial)

theorem takes_skipAll_of_ne (hl : l ≠ .symbol s) :
    Takes (skipAll s) (l :: ls) (l :: ls) fun _ => True :=
  takes_budget (skipAllIn s) (takes_skipAllIn_of_ne hl _)

theorem takes_skipAll_symbol (hl : l ≠ .symbol s) :
    Takes (skipAll s) (.symbol s :: l :: ls) (l :: ls) fun _ => True := by
  refine takes_budget (skipAllIn s) (takes_seesSymbol.bind fun _ hb => ?_)
  refine .pos (by simp [hb]) (.skip ?_)
  exact takes_skipAllIn_of_ne hl _

theorem takesItem_entry {e : Expr} (he : e.Prints ls) :
    TakesItem .semicolon .curlyRight (do
      let a ← expr (.ofSymbols [.semicolon, .curlyRight])
      skipAll .semicolon
      return a) unplaced ls e where
  starts := by
    obtain ⟨l, us, rfl, hl⟩ := exists_starts he
    exact ⟨l, us, rfl, ne_of_starts hl rfl, ne_of_starts hl rfl⟩
  last := (takes_expr rfl he rfl).bind fun _ he' =>
    (takes_skipAll_of_ne (by simp)).bind fun _ _ => .pure he'
  next hl := (takes_expr rfl he rfl).bind fun _ he' =>
    (takes_skipAll_symbol hl).bind fun _ _ => .pure he'

/-- Elements are read up to the closing brace.  The induction is on how they follow one another. -/
theorem takesAll_elements {es : List Element} (h : ElementsPrint es ls) :
    TakesAll .curlyRight (do
      let a ← element
      skipAll .semicolon
      return a) Element.unplaced (ls ++ .symbol .curlyRight :: rest) (.symbol .curlyRight :: rest)
      es := by
  induction h with
  | nil => exact takesAll_nil
  | @cons e es ls ms he hes ih =>
    -- The next element or the closing brace, which is no semicolon.
    obtain ⟨u, ws, hrest, hu⟩ : ∃ u ws, ms ++ .symbol .curlyRight :: rest = u :: ws ∧
        u ≠ .symbol .semicolon := by
      cases hes with
      | nil => exact ⟨_, rest, rfl, by simp⟩
      | cons he' _ =>
        obtain ⟨u, ws, rfl, hu⟩ := exists_starts_element he'
        exact ⟨u, _, rfl, ne_of_starts hu rfl⟩
    have hread := @takes_element ls (ms ++ .symbol .curlyRight :: rest) e he
    obtain ⟨l, us, rfl, hl⟩ := exists_starts_element he
    simp only [append_assoc, cons_append] at hread ⊢
    refine takesAll_cons (ne_of_starts hl rfl) (hread.bind fun _ he' => ?_) (by simp; omega) ih
    rw [hrest]
    exact (takes_skipAll_symbol hu).bind fun _ _ => .pure he'

theorem takes_blockOpen {keyword : Lexeme} :
    Takes blockOpen (keyword :: .symbol .curlyLeft :: ls) ls fun _ => True :=
  .skip <| takes_expectSymbol.bind fun _ _ => takes_advance

end Blocks

end Parser

end Diagram
