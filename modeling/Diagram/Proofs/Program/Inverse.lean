import Diagram.Proofs.Program.Order
import Diagram.Proofs.Program.Printed

/-!
# Reading inverts printing

A program that is read from its words is the program that they were printed from, but for its
places in a source.  An item is read from its words, and a program from the words of its items.

Main statement: `Program.parse_of_prints`.
-/

namespace Diagram

open List Item

namespace Item

/-- An item without its places in a source. -/
def unplaced : Item → Item
  | entries es => entries (es.map Expr.unplaced)
  | ticker t => ticker t.unplaced
  | display es => display (es.map Element.unplaced)
  | action sig body => action sig.unplaced body.unplaced
  | value sig body => value sig.unplaced body.unplaced
  | enum sig variants => enum sig.unplaced variants
  | blank => blank

theorem taken_unplaced (i : Item) (p : Program) : i.unplaced.taken p.unplaced = i.taken p := by
  cases i with
  | entries | ticker | display => exact Option.isSome_map
  | action sig | value sig | enum sig => exact NameMap.contains_map _ _ sig.name
  | blank => rfl

theorem put_unplaced (i : Item) (p : Program) : i.unplaced.put p.unplaced = (i.put p).unplaced := by
  cases i with
  | entries | ticker | display | blank => rfl
  | action sig body | value sig body | enum sig variants =>
    simp only [put, unplaced, Program.unplaced, NameMap.map_insert]
    rfl

end Item

namespace Parser

section Items

variable {ls ms rest : List Lexeme} {keyword : Lexeme} {a : Action} {e : Expr} {name : String}
  {ps : Option (List Param)} {area : Area} {ty : Ty}

theorem takes_nameToken :
    Takes nameToken (.name name :: ls) (.name name :: ls) (∃ t, · = (t, name)) := by
  refine takes_token.bind fun t _ => takes_expectName.bind fun n hn => .pure ⟨t, ?_⟩
  rw [hn]

theorem takes_entriesItem {es : List Expr} (hes : Separated .semicolon Expr.Prints es ls) :
    Takes entriesItem (keyword :: .symbol .curlyLeft :: (ls ++ .symbol .curlyRight :: rest)) rest
      fun i => i.unplaced = (entries es).unplaced := by
  refine takes_blockOpen.bind fun _ _ => ?_
  refine ((takes_untilSymbol (by decide) takesItem_entry hes).bind fun es' hes' =>
    .skip <| .pure hes').bind fun es' hes' => .pure ?_
  rw [unplaced, unplaced, hes']

theorem takes_displayItem {es : List Element} (hes : ElementsPrint es ls) :
    Takes displayItem (keyword :: .symbol .curlyLeft :: (ls ++ .symbol .curlyRight :: rest)) rest
      fun i => i.unplaced = (display es).unplaced := by
  refine takes_blockOpen.bind fun _ _ => ?_
  refine ((takesAll_elements hes).takes.bind fun es' hes' =>
    .skip <| .pure hes').bind fun es' hes' => .pure ?_
  rw [unplaced, unplaced, hes']

theorem exists_brace (h : a.Prints ls) : ∃ us, ls = .symbol .curlyLeft :: us := by
  cases h with
  | braces => exact ⟨_, rfl⟩

theorem takes_tickerItem (ha : a.Prints ls) :
    Takes tickerItem (keyword :: (ls ++ rest)) rest
      fun i => i.unplaced = (ticker ⟨none, a⟩).unplaced := by
  have hread := @takes_action ls rest a false ha
  refine .skip ?_
  obtain ⟨us, rfl⟩ := exists_brace ha
  refine takes_elseSymbol (by simp) (hread.bind fun a' ha' => .pure ?_)
  simp only [unplaced, Ticker.unplaced, ha']

theorem takes_tickerItem_interval (he : e.Prints ls) (ha : a.Prints ms) :
    Takes tickerItem
      (keyword :: .symbol .parenLeft :: (ls ++ .symbol .parenRight :: (ms ++ rest))) rest
      fun i => i.unplaced = (ticker ⟨some e, a⟩).unplaced := by
  refine .skip <| takes_ifSymbol (.skip ?_)
  refine (takes_expr rfl he rfl).bind fun e' he' => .skip ?_
  refine (takes_action false ha).bind fun a' ha' => .pure ?_
  simp only [unplaced, Ticker.unplaced, Option.map_some, he', ha']

theorem takes_actionItem (hps : ParamsPrint ps ls) (ha : a.Prints ms) :
    Takes actionItem (keyword :: .name name :: (ls ++ (ms ++ rest))) rest
      fun i => i.unplaced = (Item.action
        { Signature.plain .action name ps with ty := .action name, area := area } a).unplaced := by
  have hread := @takes_action ms rest a false ha
  refine .skip <| takes_nameToken.bind fun named hnamed => ?_
  obtain ⟨t, rfl⟩ := hnamed
  obtain ⟨us, rfl⟩ := exists_brace ha
  refine (takes_params hps (by simp)).bind fun ps' hps' => ?_
  refine hread.bind fun a' ha' => .pure ?_
  rw [hps']
  simp only [Item.unplaced, Signature.unplaced, ha']

/-- The words of a declared type do not start with a parenthesis. -/
theorem exists_of_declaredPrints (h : DeclaredPrints ty ls) :
    ∃ l us, ls = l :: us ∧ l ≠ .symbol .parenLeft := by
  cases h <;> exact ⟨_, _, rfl, by simp⟩

theorem takes_valueItem {declares : Declares} {ws : List Lexeme} (hps : ParamsPrint ps ls)
    (hty : DeclaredPrints ty ms) (he : e.Prints ws) :
    Takes (valueItem declares)
      (keyword :: .name name :: (ls ++ (ms ++ (ws ++ .symbol .semicolon :: rest)))) rest
      fun i => i.unplaced = (value
        { Signature.plain declares name ps with ty := ty, area := area } e).unplaced := by
  have hread := @takes_declaredTy ms (ws ++ .symbol .semicolon :: rest) ty hty
  refine .skip <| takes_nameToken.bind fun named hnamed => ?_
  obtain ⟨t, rfl⟩ := hnamed
  obtain ⟨u, us, rfl, hu⟩ := exists_of_declaredPrints hty
  refine (takes_params hps hu).bind fun ps' hps' => hread.bind fun ty' hty' => ?_
  refine (takes_definition he).bind fun e' he' => .pure ?_
  rw [hps', hty']
  simp only [unplaced, Signature.unplaced, he']

section Variables

variable {timer : Bool}

theorem takes_timedVar (hty : DeclaredPrints ty ls) (he : e.Prints ms) :
    Takes (do
      let (t, name) ← nameToken
      advance
      let declared ← declaredTy
      let value ← definition
      return Item.value
        { Signature.plain .var name none with ty := declared, timer := timer, area := t.area } value)
      (.name name :: (ls ++ (ms ++ .symbol .semicolon :: rest))) rest
      fun i => i.unplaced = (Item.value
        { Signature.plain .var name none with ty := ty, timer := timer, area := area }
        e).unplaced := by
  refine takes_nameToken.bind fun named hnamed => .skip ?_
  obtain ⟨t, rfl⟩ := hnamed
  refine (takes_declaredTy hty).bind fun ty' hty' => ?_
  refine (takes_definition he).bind fun e' he' => .pure ?_
  rw [hty']
  simp only [unplaced, Signature.unplaced, he']

theorem takes_varItem (hty : DeclaredPrints ty ls) (he : e.Prints ms) :
    Takes varItem (keyword :: ((if timer then [.keyword .timer] else []) ++
        .name name :: (ls ++ (ms ++ .symbol .semicolon :: rest)))) rest
      fun i => i.unplaced = (Item.value
        { Signature.plain .var name none with ty := ty, timer := timer, area := area }
        e).unplaced := by
  refine .skip ?_
  cases timer with
  | true =>
    refine takes_atKeyword.bind fun b hb => ?_
    obtain rfl : b = true := by simp [hb]
    exact .skip <| takes_timedVar hty he
  | false =>
    refine takes_atKeyword.bind fun b hb => ?_
    obtain rfl : b = false := by simp [hb]
    exact takes_timedVar hty he

end Variables

theorem takes_enumItem {variants : List String}
    (hvariants : Separated .comma VariantPrints variants ls) :
    Takes enumItem
      (keyword :: .name name :: .symbol .curlyLeft :: (ls ++ .symbol .curlyRight :: rest)) rest
      fun i => i.unplaced = (enum
        { Signature.plain .enum name none with
          ty := .user name, variants := variants, area := area } variants).unplaced := by
  refine .skip <| takes_nameToken.bind fun named hnamed => ?_
  obtain ⟨t, rfl⟩ := hnamed
  refine takes_blockOpen.bind fun _ _ => ?_
  refine (takes_untilSymbol (by decide) takesItem_variant hvariants).bind
    fun variants' heq => .skip <| .pure ?_
  rw [map_id, map_id] at heq
  rw [heq]
  rfl

theorem takes_itemAlone_of {m : Parser Item} {P : Item → Prop} (h : Takes m (keyword :: ls) rest P)
    (hm : ∀ start stop us last, let c : Cursor := ⟨⟨keyword, start, stop⟩ :: us, last⟩
      itemAlone.run c = m.run c := by intros; rfl) : Takes itemAlone (keyword :: ls) rest P := by
  intro ts last hts
  obtain ⟨⟨_, start, stop⟩, us, rfl, rfl, -⟩ := map_eq_cons_iff.1 hts
  rw [hm]
  exact h _ last hts

/-- An item is read from its words, of which the first tells its kind. -/
theorem takes_itemAlone {i : Item} (h : i.Prints ls) :
    Takes itemAlone (ls ++ rest) rest fun i' => i'.unplaced = i.unplaced := by
  cases h with
  | entries hes =>
    simp only [append_assoc, cons_append, nil_append]
    exact takes_itemAlone_of (takes_entriesItem hes)
  | ticker ha =>
    exact takes_itemAlone_of (takes_tickerItem ha)
  | interval he ha =>
    simp only [append_assoc, cons_append]
    exact takes_itemAlone_of (takes_tickerItem_interval he ha)
  | display hes =>
    simp only [append_assoc, cons_append, nil_append]
    exact takes_itemAlone_of (takes_displayItem hes)
  | action hps ha =>
    simp only [append_assoc, cons_append]
    exact takes_itemAlone_of (takes_actionItem hps ha)
  | value hk hps hty he =>
    simp only [append_assoc, cons_append, nil_append]
    simp only [mem_cons, Prod.mk.injEq, not_mem_nil, or_false] at hk
    obtain ⟨rfl, rfl⟩ | ⟨rfl, rfl⟩ := hk <;>
      exact takes_itemAlone_of (takes_valueItem hps hty he)
  | var hty he =>
    simp only [append_assoc, cons_append, nil_append]
    exact takes_itemAlone_of (takes_varItem hty he)
  | enum hvariants =>
    simp only [append_assoc, cons_append, nil_append]
    exact takes_itemAlone_of (takes_enumItem hvariants)
  | blank =>
    exact takes_itemAlone_of (.skip <| .pure rfl)

end Items

theorem exists_itemsReading_of_prints {p : Program} {ls : List Lexeme} (h : p.Prints ls)
    {ts : List Token} (hts : ts.map Token.lexeme = ls) :
    ∃ is q, ItemsReading ts is ∧ is.foldlM add? .empty = some q ∧ q.unplaced = p.unplaced := by
  induction h generalizing ts with
  | empty =>
    obtain rfl := map_eq_nil_iff.1 hts
    exact ⟨[], .empty, .nil, rfl, rfl⟩
  | @item p i ls ls₁ _ hnew hi ih =>
    obtain ⟨us, vs, rfl, hus, hvs⟩ := map_eq_append_iff.1 hts
    obtain ⟨is, q, hreading, hfold, hq⟩ := ih hus
    obtain ⟨i', left, hrun, hleft, hi'⟩ :=
      @takes_itemAlone ls₁ [] i hi vs none (hvs.trans (append_nil ls₁).symm)
    obtain rfl := map_eq_nil_iff.1 hleft
    obtain ⟨ws, rest, htaken, rfl, hdone, hmore⟩ := seals_itemAlone.run hrun
    obtain rfl : rest = [] := by simpa using hdone.symm
    have hfree : i'.taken q = false := by
      rw [← i'.taken_unplaced, hi', hq, i.taken_unplaced, hnew]
    refine ⟨is ++ [i'], i'.put q, hreading.append (.cons htaken hmore .nil), ?_, ?_⟩
    · rw [foldlM_append, hfold]
      simp [add?, hfree]
    · rw [← i'.put_unplaced, hi', hq, i.put_unplaced]

end Parser

/-- The words of a program are read as the program, but for its places in a source. -/
theorem Program.parse_of_prints {p : Program} {ts : List Token}
    (h : p.Prints (ts.map Token.lexeme)) :
    ∃ q, Program.parse ts = .ok q ∧ q.unplaced = p.unplaced := by
  obtain ⟨is, q, hreading, hfold, hq⟩ := Parser.exists_itemsReading_of_prints h rfl
  exact ⟨q, (parse_eq_ok_iff hreading).2 hfold, hq⟩

/-- The words `var n : int = 0 ; action step \x7b if n : \x7b n := 1 \x7d else : \x7b action step ( ) ,
n := 0 \x7d \x7d display \x7b n : n , drag ( "x" ) ; \x7d`. -/
theorem Program.parse_of_prints_step :
    let reference (n : String) : Expr := .reference n .nowhere
    let set (i : Int64) : Action := .update (reference "n") (.constant (.int i) .nowhere)
    let step : Action := .conditional [(reference "n", set 1)]
      (.block [.call (reference "step") [], set 0])
    let sig := Signature.plain .var "n" none
    let p := put (put (put .empty
      (.value { sig with ty := .int } (.constant (.int 0) .nowhere)))
      (.action { Signature.plain .action "step" none with ty := .action "step" } step))
      (.display [{ Element.plain (some (reference "n")) (some (reference "n")) with
        drag := some .x }])
    let ts := Parser.tokensOf [.keyword .varDecl, .name "n", .symbol .colon, .name "int",
      .symbol .equal, .int 0, .symbol .semicolon, .keyword .actionDecl, .name "step",
      .symbol .curlyLeft, .keyword .ifCond, .name "n", .symbol .colon, .symbol .curlyLeft,
      .name "n", .symbol .colonEqual, .int 1, .symbol .curlyRight, .keyword .elseCond,
      .symbol .colon, .symbol .curlyLeft, .keyword .actionDecl, .name "step", .symbol .parenLeft,
      .symbol .parenRight, .symbol .comma, .name "n", .symbol .colonEqual, .int 0,
      .symbol .curlyRight, .symbol .curlyRight, .keyword .displayBlock, .symbol .curlyLeft,
      .name "n", .symbol .colon, .name "n", .symbol .comma, .name "drag", .symbol .parenLeft,
      .str "x", .symbol .parenRight, .symbol .semicolon, .symbol .curlyRight]
    p.Prints (ts.map Token.lexeme) ∧
      ∃ q, Program.parse ts = .ok q ∧ q.unplaced = p.unplaced := by
  intro reference set step sig p ts
  have hreference : ∀ n, (reference n).Prints [.name n] := fun _ => ⟨none, .name⟩
  have hint : ∀ i, (Expr.constant (.int i) .nowhere).Prints [.int i] := fun _ => ⟨none, .literal rfl⟩
  have hset : ∀ i, InlinePrints (set i) ([.name "n"] ++ .symbol .colonEqual :: [.int i]) :=
    fun _ => @InlinePrints.update .nowhere _ _ _ ⟨_, .binary (by decide) .name rfl (.literal rfl) rfl⟩
  have hcall : InlinePrints (.call (reference "step") [])
      (.keyword .actionDecl :: .name "step" :: .symbol .parenLeft :: [] ++ [.symbol .parenRight]) :=
    @InlinePrints.call .nowhere _ _ _ ⟨_, .actionCall .none⟩
  have hstep : Action.Prints (.ofList [step]) _ :=
    .braces (.last (.conditional
      (.cons (hreference "n") (.braces (.last (.inline (hset 1) (by decide)))) .nil)
      (.action (.braces (.cons (.inline hcall (by decide)) (.last (.inline (hset 0) (by decide))))))))
  have hdrag : AttributesPrint (.plain (some (reference "n")) (some (reference "n"))) _ _ :=
    .last (@AttributePrints.drag _ .x _ rfl (.parens (.last ⟨none, .literal rfl⟩)))
  have hvar := @Item.Prints.var false "n" .int .nowhere _ _ _
    (.some (.item (@Ty.Named.name "int"))) (hint 0)
  have haction := @Item.Prints.action "step" none .nowhere step _ _ .none hstep
  have hp : p.Prints (ts.map Token.lexeme) :=
    .item (.item (.item .empty rfl hvar) rfl haction) rfl
      (.display (.cons (.attributes (hreference "n") (hreference "n") hdrag) .nil))
  exact ⟨hp, Program.parse_of_prints hp⟩

end Diagram
