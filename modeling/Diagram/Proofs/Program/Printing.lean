import Diagram.Proofs.Parser.Writing
import Diagram.Proofs.Program.Judged

/-!
# Ways of printing a program

The words that a program can be written with.  An action stands in braces, and so does the body of
each branch of a conditional; a block of a single action is not told from that action.  Where the
words of an update or of a call would start with a brace they need parentheses, since a brace opens
a block there.  All arguments of an attribute are written out.

A program is printed item by item, each of which declares a name that is new or is the first block
of its kind.  Places in a source say nothing here, and `unplaced` drops them.
-/

namespace Diagram

/-- Some things with a symbol between them, and perhaps one behind the last. -/
inductive Separated {α : Type} (separator : Symbol) (W : α → List Lexeme → Prop) :
    List α → List Lexeme → Prop
  | nil : Separated separator W [] []
  | last {a ls} (ha : W a ls) : Separated separator W [a] ls
  | cons {a as ls rest} (ha : W a ls) (has : Separated separator W as rest) :
      Separated separator W (a :: as) (ls ++ .symbol separator :: rest)

/-- An expression with its words, whatever stands outermost. -/
def Expr.Prints (e : Expr) (ls : List Lexeme) : Prop :=
  ∃ o, Printing e o ls

section Declarations

/-- A type that is written with a single word. -/
inductive Ty.Named : Ty → Lexeme → Prop
  | unknown : Named .unknown (.symbol .question)
  | name {n} : Named (Ty.ofName n) (.name n)

/-- A type of one level. -/
inductive Ty.Prints : Ty → List Lexeme → Prop
  | item {t l} (ht : t.Named l) : Prints t [l]
  | list {t l} (ht : t.Named l) : Prints (.list t) [.symbol .squareLeft, l, .symbol .squareRight]

inductive Param.Prints : Param → List Lexeme → Prop
  | untyped {n} : Prints ⟨n, .unknown⟩ [.name n]
  | typed {n t ls} (ht : t.Prints ls) : Prints ⟨n, t⟩ (.name n :: .symbol .colon :: ls)

/-- The parameters of a declaration, which may have no list of them. -/
inductive ParamsPrint : Option (List Param) → List Lexeme → Prop
  | none : ParamsPrint none []
  | some {ps ls} (hps : Separated .comma Param.Prints ps ls) :
      ParamsPrint (some ps) (.symbol .parenLeft :: ls ++ [.symbol .parenRight])

/-- The type of a declaration, which may be left out, and the equals sign behind it. -/
inductive DeclaredPrints : Ty → List Lexeme → Prop
  | none : DeclaredPrints .unknown [.symbol .equal]
  | some {t ls} (ht : t.Prints ls) : DeclaredPrints t (.symbol .colon :: ls ++ [.symbol .equal])

/-- The variants of an enumeration. -/
inductive VariantPrints : String → List Lexeme → Prop
  | name {n} : VariantPrints n [.name n]

end Declarations

section Actions

variable (B : Action → List Lexeme → Prop)

/-- The branches of a conditional, of which the first starts with a keyword and the others with
`elif`.  Their bodies are in braces. -/
inductive BranchesPrint : Keyword → List (Expr × Action) → List Lexeme → Prop
  | nil {k} : BranchesPrint k [] []
  | cons {k cond body arms ls ls₁ rest} (hcond : cond.Prints ls) (hbody : B body ls₁)
      (harms : BranchesPrint .elifCond arms rest) :
      BranchesPrint k ((cond, body) :: arms) (.keyword k :: ls ++ .symbol .colon :: ls₁ ++ rest)

/-- What is done if no condition holds, or nothing. -/
inductive DefaultPrints : Action → List Lexeme → Prop
  | hole : DefaultPrints .hole []
  | action {a ls} (ha : B a ls) : DefaultPrints a (.keyword .elseCond :: .symbol .colon :: ls)

/-- An update or a call without braces. -/
inductive InlinePrints : Action → List Lexeme → Prop
  | update {area target value ls}
      (h : Expr.Prints (.operator ⟨.unknown, area⟩ .update [target, value]) ls) :
      InlinePrints (.update target value) ls
  | call {area callee args ls}
      (h : Expr.Prints (.operator ⟨.unknown, area⟩ .actionCall (callee :: args)) ls) :
      InlinePrints (.call callee args) ls

/-- An action inside of a block.  The flag tells whether a comma has to stand before another. -/
inductive LinePrints : Action → Bool → List Lexeme → Prop
  | inline {a ls} (h : InlinePrints a ls) (hbrace : ls.head? ≠ some (.symbol .curlyLeft)) :
      LinePrints a true ls
  | braced {a ls} (h : B a ls) : LinePrints a false ls
  | conditional {cond body default arms ls ls₁}
      (harms : BranchesPrint B .ifCond ((cond, body) :: arms) ls)
      (hdefault : DefaultPrints B default ls₁) :
      LinePrints (.conditional ((cond, body) :: arms) default) false (ls ++ ls₁)

/-- The actions of a block. -/
inductive LinesPrint : List Action → List Lexeme → Prop
  | nil : LinesPrint [] []
  | last {a b ls} (ha : LinePrints B a b ls) : LinesPrint [a] ls
  | cons {a b as ls rest} (ha : LinePrints B a b ls) (has : LinesPrint as rest) :
      LinesPrint (a :: as) (ls ++ .symbol .comma :: rest)
  | next {a as ls rest} (ha : LinePrints B a false ls) (has : LinesPrint as rest) :
      LinesPrint (a :: as) (ls ++ rest)

end Actions

/-- An action in braces, which go around the actions of a block or around a single action.  So no
block of exactly one action is printed. -/
inductive Action.Prints : Action → List Lexeme → Prop
  | braces {actions ls} (h : LinesPrint Prints actions ls) :
      Prints (.ofList actions) (.symbol .curlyLeft :: ls ++ [.symbol .curlyRight])

section Elements

/-- A name with arguments in parentheses. -/
inductive ArgumentsPrint (name : String) (args : List Expr) : List Lexeme → Prop
  | parens {ls} (hargs : Separated .comma Expr.Prints args ls) :
      ArgumentsPrint name args (.name name :: .symbol .parenLeft :: ls ++ [.symbol .parenRight])

def Expr.string (s : String) : Expr :=
  .constant (.str s) .nowhere

/-- One attribute of an element that does not have it yet. -/
inductive AttributePrints (e : Element) : List Lexeme → Element → Prop
  | point {size opacity style ls} (hnew : e.point = none)
      (hargs : ArgumentsPrint "point" [size, opacity, .string style.text] ls) :
      AttributePrints e ls { e with point := some ⟨some size, some opacity, style⟩ }
  | stroke {width opacity style ls} (hnew : e.stroke = none)
      (hargs : ArgumentsPrint "stroke" [width, opacity, .string style.text] ls) :
      AttributePrints e ls { e with stroke := some ⟨some width, some opacity, style⟩ }
  | fill {opacity ls} (hnew : e.fill = none) (hargs : ArgumentsPrint "fill" [opacity] ls) :
      AttributePrints e ls { e with fill := some ⟨some opacity⟩ }
  | label {text opacity scale angle orientation ls} (hnew : e.label = none)
      (hargs : ArgumentsPrint "label" [.string text, opacity, scale, angle, .string orientation.text] ls) :
      AttributePrints e ls
        { e with label := some ⟨text, some opacity, some scale, some angle, orientation⟩ }
  | drag {mode ls} (hnew : e.drag = none) (hargs : ArgumentsPrint "drag" [.string mode.text] ls) :
      AttributePrints e ls { e with drag := some mode }
  | click {a ls} (hnew : e.click = none) (ha : a.Prints ls) :
      AttributePrints e (.name "click" :: ls) { e with click := some a }
  | description {text ls} (hnew : e.description = none)
      (hargs : ArgumentsPrint "description" [.string text] ls) :
      AttributePrints e ls { e with description := some text }

/-- The attributes that make an element of one that lacks them, in any order. -/
inductive AttributesPrint : Element → List Lexeme → Element → Prop
  | nil {e} : AttributesPrint e [] e
  | last {e e' ls} (h : AttributePrints e ls e') : AttributesPrint e ls e'
  | cons {e e' e'' ls rest} (h : AttributePrints e ls e') (hrest : AttributesPrint e' rest e'') :
      AttributesPrint e (ls ++ .symbol .comma :: rest) e''

/-- An element without the semicolon that ends it. -/
inductive Element.Prints : Element → List Lexeme → Prop
  | plain {what color ls ls₁} (hwhat : what.Prints ls) (hcolor : color.Prints ls₁) :
      Prints (.plain (some what) (some color)) (ls ++ .symbol .colon :: ls₁)
  | attributes {what color e ls ls₁ ls₂} (hwhat : what.Prints ls) (hcolor : color.Prints ls₁)
      (h : AttributesPrint (.plain (some what) (some color)) ls₂ e) :
      Prints e (ls ++ .symbol .colon :: ls₁ ++ .symbol .comma :: ls₂)

/-- Elements, each with its semicolon. -/
inductive ElementsPrint : List Element → List Lexeme → Prop
  | nil : ElementsPrint [] []
  | cons {e es ls rest} (he : e.Prints ls) (hes : ElementsPrint es rest) :
      ElementsPrint (e :: es) (ls ++ .symbol .semicolon :: rest)

end Elements

/-- An item of a program with its words. -/
inductive Item.Prints : Item → List Lexeme → Prop
  | entries {es ls} (hes : Separated .semicolon Expr.Prints es ls) :
      Prints (.entries es)
        (.keyword .publicBlock :: .symbol .curlyLeft :: ls ++ [.symbol .curlyRight])
  | ticker {a ls} (ha : a.Prints ls) : Prints (.ticker ⟨none, a⟩) (.keyword .tickerBlock :: ls)
  | interval {e a ls ls₁} (he : e.Prints ls) (ha : a.Prints ls₁) :
      Prints (.ticker ⟨some e, a⟩)
        (.keyword .tickerBlock :: .symbol .parenLeft :: ls ++ .symbol .parenRight :: ls₁)
  | display {es ls} (hes : ElementsPrint es ls) :
      Prints (.display es)
        (.keyword .displayBlock :: .symbol .curlyLeft :: ls ++ [.symbol .curlyRight])
  | action {name ps area a ls ls₁} (hps : ParamsPrint ps ls) (ha : a.Prints ls₁) :
      Prints (.action { Signature.plain .action name ps with ty := .action name, area := area } a)
        (.keyword .actionDecl :: .name name :: ls ++ ls₁)
  | value {declares k name ps t area e ls ls₁ ls₂}
      (hk : (declares, k) ∈ [(.const, .constDecl), (.letValue, .letDecl)])
      (hps : ParamsPrint ps ls) (ht : DeclaredPrints t ls₁) (he : e.Prints ls₂) :
      Prints (.value { Signature.plain declares name ps with ty := t, area := area } e)
        (.keyword k :: .name name :: ls ++ ls₁ ++ ls₂ ++ [.symbol .semicolon])
  | var {timer name t area e ls ls₁} (ht : DeclaredPrints t ls) (he : e.Prints ls₁) :
      Prints
        (.value { Signature.plain .var name none with ty := t, timer := timer, area := area } e)
        (.keyword .varDecl :: (if timer then [.keyword .timer] else []) ++ .name name :: ls ++ ls₁ ++
          [.symbol .semicolon])
  | enum {name variants area ls} (hvariants : Separated .comma VariantPrints variants ls) :
      Prints
        (.enum
          { Signature.plain .enum name none with
            ty := .user name, variants := variants, area := area }
          variants)
        (.keyword .enumDecl :: .name name :: .symbol .curlyLeft :: ls ++ [.symbol .curlyRight])
  | blank : Prints .blank [.symbol .semicolon]

/-- A program with its words.  Its items stand in any order; the names that they declare are
distinct, and there is at most one block of each kind. -/
inductive Program.Prints : Program → List Lexeme → Prop
  | empty : Prints .empty []
  | item {p : Program} {i : Item} {ls ls₁ : List Lexeme} (hp : Prints p ls)
      (hnew : i.taken p = false) (hi : i.Prints ls₁) : Prints (i.put p) (ls ++ ls₁)

section Unplaced

/-- A signature without its place in a source. -/
def Signature.unplaced (s : Signature) : Signature :=
  { s with area := .nowhere }

def PointAttr.unplaced (a : PointAttr) : PointAttr :=
  { a with size := a.size.map Expr.unplaced, opacity := a.opacity.map Expr.unplaced }

def StrokeAttr.unplaced (a : StrokeAttr) : StrokeAttr :=
  { a with width := a.width.map Expr.unplaced, opacity := a.opacity.map Expr.unplaced }

def FillAttr.unplaced (a : FillAttr) : FillAttr :=
  { a with opacity := a.opacity.map Expr.unplaced }

def LabelAttr.unplaced (a : LabelAttr) : LabelAttr :=
  { a with
    opacity := a.opacity.map Expr.unplaced
    scale := a.scale.map Expr.unplaced
    angle := a.angle.map Expr.unplaced }

/-- An element without its places in a source. -/
def Element.unplaced (e : Element) : Element :=
  { e with
    what := e.what.map Expr.unplaced
    color := e.color.map Expr.unplaced
    point := e.point.map PointAttr.unplaced
    stroke := e.stroke.map StrokeAttr.unplaced
    fill := e.fill.map FillAttr.unplaced
    label := e.label.map LabelAttr.unplaced
    click := e.click.map Action.unplaced }

/-- A ticker without its places in a source. -/
def Ticker.unplaced (t : Ticker) : Ticker :=
  ⟨t.interval.map Expr.unplaced, t.action.unplaced⟩

/-- A program without its places in a source. -/
def Program.unplaced (p : Program) : Program where
  signatures := p.signatures.map Signature.unplaced
  identifiers := p.identifiers.map Expr.unplaced
  actions := p.actions.map Action.unplaced
  enums := p.enums
  entries := p.entries.map (List.map Expr.unplaced)
  ticker := p.ticker.map Ticker.unplaced
  display := p.display.map (List.map Element.unplaced)

end Unplaced

end Diagram
