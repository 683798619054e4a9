import Diagram.Cursor
import Diagram.Expr

/-!
# Ways of writing an expression

`Writing` relates an expression to the words that it can be written with: the words of each
operation stand before, between, behind or around those of its operands.  Parentheses may be
put around any operand; where they may be left out is a parameter, `fits`.

`Printing` asks for parentheses wherever the precedence of the operations would group the
words differently.  `Spelling` never asks for them.
-/

namespace Diagram

/-- The word of a constant that is written as a single one. -/
def Value.lexeme? : Value → Option Lexeme
  | .int i => some (.int i)
  | .real x => some (.real x)
  | .bool b => some (.bool b)
  | .str s => some (.str s)
  | _ => none

namespace Operation

def unaryWord? : Operation → Option Lexeme
  | posate => some (.symbol .plus)
  | negate => some (.symbol .minus)
  | not => some (.symbol .bang)
  | builtIn => some (.symbol .atSign)
  | _ => none

/-- The words that can stand between the two operands. -/
def binaryWords : Operation → List Lexeme
  | memberAccess => [.symbol .dot]
  | exponent => [.symbol .caret, .symbol .star2]
  | multiply => [.symbol .star]
  | divide => [.symbol .slash]
  | modulus => [.symbol .percent]
  | add => [.symbol .plus]
  | subtract => [.symbol .minus]
  | lessThan => [.symbol .lessThan]
  | greaterThan => [.symbol .greaterThan]
  | lessEqual => [.symbol .lessEqual]
  | greaterEqual => [.symbol .greaterEqual]
  | equal => [.symbol .equal2]
  | notEqual => [.symbol .notEqual]
  | and => [.symbol .ampersand2]
  | or => [.symbol .pipe2]
  | assignment => [.symbol .equal]
  | update => [.symbol .colonEqual]
  | withBinding => [.keyword .withBinding]
  | _ => []

end Operation

namespace Lexeme

def starts : Lexeme → Bool
  | symbol s => [.plus, .minus, .bang, .atSign, .parenLeft, .squareLeft, .curlyLeft].contains s
  | keyword k => k == .actionDecl
  | _ => true

/-- The words that can stand behind an expression and go on with it. -/
def continues : Lexeme → Bool
  | symbol s =>
    [.star, .slash, .percent, .caret, .star2, .ampersand2, .pipe2, .equal2, .notEqual, .lessThan,
      .greaterThan, .lessEqual, .greaterEqual, .equal, .colonEqual, .dot, .plus, .minus,
      .parenLeft, .squareLeft].contains s
  | keyword k => k == .withBinding
  | _ => false

end Lexeme

/-- Whether no end can start or continue an expression. -/
def Ends.areOutside (ends : Ends) : Bool :=
  let isOutside (l : Lexeme) : Bool := !l.starts && !l.continues
  ends.symbols.all (isOutside <| .symbol ·) && ends.keywords.all (isOutside <| .keyword ·)

theorem Ends.not_starts_of_areOutside {ends : Ends} {l : Lexeme} (hends : ends.areOutside)
    (hl : ends.contains l) : l.starts = false ∧ l.continues = false := by
  simp only [areOutside, Bool.and_eq_true, List.all_eq_true, Bool.not_eq_true'] at hends
  cases l with
  | symbol s => exact hends.1 s (by simpa [contains] using hl)
  | keyword k => exact hends.2 k (by simpa [contains] using hl)
  | _ => simp [contains] at hl

/-- Where an operand stands to the word of its operation. -/
inductive Side where
  | left | right
deriving DecidableEq, Repr

/-- Whether an operand may stand without parentheses beside an operation.  `outer` is the
operation whose words stand outermost in the operand; there is none in a single word and in
what has brackets around it.  Calls and indices close with a bracket, so that nothing on their
right can reach into them. -/
def Operation.admits (op : Operation) : Side → Option Operation → Bool
  | _, none => true
  | .left, some q => q.precedes op || q.precedence == .suffix
  | .right, some q => !op.precedes q

section Sequences

variable (W : Expr → Option Operation → List Lexeme → Prop)

/-- Expressions with commas between them, at least one. -/
inductive Commas : List Expr → List Lexeme → Prop
  | one {e o ls} (he : W e o ls) : Commas [e] ls
  | cons {e o es ls rest} (he : W e o ls) (hes : Commas es rest) :
      Commas (e :: es) (ls ++ .symbol .comma :: rest)

/-- Any number of expressions with commas between them, and perhaps one behind the last. -/
inductive Items : List Expr → List Lexeme → Prop
  | none : Items [] []
  | plain {es ls} (hes : Commas W es ls) : Items es ls
  | trailing {es ls} (hes : Commas W es ls) : Items es (ls ++ [.symbol .comma])

/-- A comprehension without its brackets.  The body of a clause is an expression, or a
comprehension that shares the brackets. -/
inductive Clauses : Expr → List Lexeme → Prop
  | first {area e bound source o o₁ o₂ ls ls₁ ls₂} (he : W e o ls) (hbound : W bound o₁ ls₁)
      (hsource : W source o₂ ls₂) :
      Clauses (.operator ⟨.unknown, area⟩ .listMap [e, bound, source])
        (ls ++ .keyword .forEach :: ls₁ ++ .keyword .inList :: ls₂)
  | next {area e bound source o₁ o₂ ls ls₁ ls₂} (he : Clauses e ls) (hbound : W bound o₁ ls₁)
      (hsource : W source o₂ ls₂) :
      Clauses (.operator ⟨.unknown, area⟩ .listMap [e, bound, source])
        (ls ++ .keyword .forEach :: ls₁ ++ .keyword .inList :: ls₂)

/-- Conditions with their values, at least one pair. -/
inductive Arms : List Expr → List Lexeme → Prop
  | one {cond value o o₁ ls ls₁} (hcond : W cond o ls) (hvalue : W value o₁ ls₁) :
      Arms [cond, value] (ls ++ .symbol .colon :: ls₁)
  | cons {cond value o o₁ es ls ls₁ rest} (hcond : W cond o ls) (hvalue : W value o₁ ls₁)
      (hes : Arms es rest) :
      Arms (cond :: value :: es) (ls ++ .symbol .colon :: ls₁ ++ .symbol .comma :: rest)

/-- The content of a conditional: its arms, the default that may follow them, and perhaps a
comma behind the last. -/
inductive Branches : List Expr → List Lexeme → Prop
  | plain {es ls} (hes : Arms W es ls) : Branches es ls
  | default {es e o ls ls₁} (hes : Arms W es ls) (he : W e o ls₁) :
      Branches (es ++ [e]) (ls ++ .symbol .comma :: ls₁)

end Sequences

def Operation.rangeWord? : Operation → Option Lexeme
  | exclusiveRange => some (.symbol .exclusiveRange)
  | inclusiveRange => some (.symbol .inclusiveRange)
  | _ => none

/-- A comma that may be left out. -/
def OptionalComma (ls : List Lexeme) : Prop :=
  ls = [] ∨ ls = [.symbol .comma]

/-- The ways of writing an expression, with the operation whose words stand outermost. -/
inductive Writing (fits : Operation → Side → Option Operation → Prop) :
    Expr → Option Operation → List Lexeme → Prop
  | literal {area v l} (hv : v.lexeme? = some l) : Writing fits (.literal ⟨v.ty, area⟩ v) none [l]
  | name {area n} : Writing fits (.name ⟨.unknown, area⟩ n) none [.name n]
  | group {e o ls} (he : Writing fits e o ls) :
      Writing fits e none (.symbol .parenLeft :: ls ++ [.symbol .parenRight])
  | unary {area op w e o ls} (hw : op.unaryWord? = some w) (he : Writing fits e o ls)
      (hfits : fits op .right o) :
      Writing fits (.operator ⟨.unknown, area⟩ op [e]) (some op) (w :: ls)
  | binary {area op w e₁ e₂ o₁ o₂ ls₁ ls₂} (hw : w ∈ op.binaryWords)
      (he₁ : Writing fits e₁ o₁ ls₁) (hfits₁ : fits op .left o₁) (he₂ : Writing fits e₂ o₂ ls₂)
      (hfits₂ : fits op .right o₂) :
      Writing fits (.operator ⟨.unknown, area⟩ op [e₁, e₂]) (some op) (ls₁ ++ w :: ls₂)
  | call {area f o args ls ls₁} (hf : Writing fits f o ls) (hfits : fits .call .left o)
      (hargs : Items (Writing fits) args ls₁) :
      Writing fits (.operator ⟨.unknown, area⟩ .call (f :: args)) (some .call)
        (ls ++ .symbol .parenLeft :: ls₁ ++ [.symbol .parenRight])
  | actionCall {area area₁ n args ls} (hargs : Items (Writing fits) args ls) :
      Writing fits
        (.operator ⟨.unknown, area⟩ .actionCall (.name ⟨.unknown, area₁⟩ n :: args))
        (some .actionCall)
        (.keyword .actionDecl :: .name n :: .symbol .parenLeft :: ls ++ [.symbol .parenRight])
  | index {area e i o o₁ ls ls₁} (he : Writing fits e o ls) (hfits : fits .index .left o)
      (hi : Writing fits i o₁ ls₁) :
      Writing fits (.operator ⟨.unknown, area⟩ .index [e, i]) (some .index)
        (ls ++ .symbol .squareLeft :: ls₁ ++ [.symbol .squareRight])
  | point {area x y o o₁ ls ls₁} (hx : Writing fits x o ls) (hy : Writing fits y o₁ ls₁) :
      Writing fits (.operator ⟨.unknown, area⟩ .pointLiteral [x, y]) none
        (.symbol .parenLeft :: ls ++ .symbol .comma :: ls₁ ++ [.symbol .parenRight])
  | list {area es ls} (hes : Items (Writing fits) es ls) :
      Writing fits (.operator ⟨.unknown, area⟩ .listLiteral es) none
        (.symbol .squareLeft :: ls ++ [.symbol .squareRight])
  | fill {area e n o o₁ ls ls₁} (he : Writing fits e o ls) (hn : Writing fits n o₁ ls₁) :
      Writing fits (.operator ⟨.unknown, area⟩ .listFill [e, n]) none
        (.symbol .squareLeft :: ls ++ .symbol .semicolon :: ls₁ ++ [.symbol .squareRight])
  | range {area op w es e o ls ls₁} (hw : op.rangeWord? = some w)
      (hes : Commas (Writing fits) es ls) (he : Writing fits e o ls₁) :
      Writing fits (.operator ⟨.unknown, area⟩ op (es ++ [e])) none
        (.symbol .squareLeft :: ls ++ w :: ls₁ ++ [.symbol .squareRight])
  | map {e ls} (he : Clauses (Writing fits) e ls) :
      Writing fits e none (.symbol .squareLeft :: ls ++ [.symbol .squareRight])
  | filter {area e cond o o₁ ls ls₁} (he : Writing fits e o ls) (hcond : Writing fits cond o₁ ls₁) :
      Writing fits (.operator ⟨.unknown, area⟩ .listFilter [e, cond]) none
        (.symbol .squareLeft :: ls ++ .keyword .whereCond :: ls₁ ++ [.symbol .squareRight])
  | mapFilter {area e cond o₁ ls ls₁} (he : Clauses (Writing fits) e ls)
      (hcond : Writing fits cond o₁ ls₁) :
      Writing fits (.operator ⟨.unknown, area⟩ .listFilter [e, cond]) none
        (.symbol .squareLeft :: ls ++ .keyword .whereCond :: ls₁ ++ [.symbol .squareRight])
  | conditional {area es ls comma} (hes : Branches (Writing fits) es ls)
      (hcomma : OptionalComma comma) :
      Writing fits (.operator ⟨.unknown, area⟩ .conditional es) none
        (.symbol .curlyLeft :: ls ++ comma ++ [.symbol .curlyRight])

/-- The ways of writing that have parentheses at least where precedence asks for them. -/
abbrev Printing : Expr → Option Operation → List Lexeme → Prop :=
  Writing fun op side outer => op.admits side outer = true

/-- The ways of writing, whatever the parentheses. -/
abbrev Spelling : Expr → Option Operation → List Lexeme → Prop :=
  Writing fun _ _ _ => True

section Spelled

variable {fits : Operation → Side → Option Operation → Prop}

mutual

theorem Writing.spelling {e o ls} : Writing fits e o ls → Spelling e o ls
  | .literal hv => .literal hv
  | .name => .name
  | .group he => .group he.spelling
  | .unary hw he _ => .unary hw he.spelling trivial
  | .binary hw he₁ _ he₂ _ => .binary hw he₁.spelling trivial he₂.spelling trivial
  | .call hf _ hargs => .call hf.spelling trivial (items_spelling hargs)
  | .actionCall hargs => .actionCall (items_spelling hargs)
  | .index he _ hi => .index he.spelling trivial hi.spelling
  | .point hx hy => .point hx.spelling hy.spelling
  | .list hes => .list (items_spelling hes)
  | .fill he hn => .fill he.spelling hn.spelling
  | .range hw hes he => .range hw (commas_spelling hes) he.spelling
  | .map he => .map (clauses_spelling he)
  | .filter he hcond => .filter he.spelling hcond.spelling
  | .mapFilter he hcond => .mapFilter (clauses_spelling he) hcond.spelling
  | .conditional hes hcomma => .conditional (branches_spelling hes) hcomma

theorem items_spelling {es ls} : Items (Writing fits) es ls → Items Spelling es ls
  | .none => .none
  | .plain hes => .plain (commas_spelling hes)
  | .trailing hes => .trailing (commas_spelling hes)

theorem commas_spelling {es ls} : Commas (Writing fits) es ls → Commas Spelling es ls
  | .one he => .one he.spelling
  | .cons he hes => .cons he.spelling (commas_spelling hes)

theorem clauses_spelling {e ls} : Clauses (Writing fits) e ls → Clauses Spelling e ls
  | .first he hbound hsource => .first he.spelling hbound.spelling hsource.spelling
  | .next he hbound hsource => .next (clauses_spelling he) hbound.spelling hsource.spelling

theorem arms_spelling {es ls} : Arms (Writing fits) es ls → Arms Spelling es ls
  | .one hcond hvalue => .one hcond.spelling hvalue.spelling
  | .cons hcond hvalue hes => .cons hcond.spelling hvalue.spelling (arms_spelling hes)

theorem branches_spelling {es ls} : Branches (Writing fits) es ls → Branches Spelling es ls
  | .plain hes => .plain (arms_spelling hes)
  | .default hes he => .default (arms_spelling hes) he.spelling

end

end Spelled

end Diagram
