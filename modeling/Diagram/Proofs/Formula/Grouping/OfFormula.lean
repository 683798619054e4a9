import Diagram.Proofs.Formula.Grouping.Reader

/-!
# How formulas are grouped

The grouping of a formula is the tree that its markup stands for.  Its markup is read as that tree
exactly if no part binds more loosely than its place.

Main statement: `Formula.read_markup_iff`.
-/

namespace Diagram

open Option

variable (x : Float)

namespace Grouping

variable (s : String)

def ofRun : Grouping :=
  match unsigned? s with
  | some rest => .signed true (.atom (.run rest))
  | none => .atom (.run s)

def fraction (numerator denominator : Grouping) : Grouping :=
  .affixed .denominator (.enclosed .numerator numerator) denominator

def ofDecimal : Grouping :=
  match Decimal.Binary.ofFloat x with
  | .nan => fraction (.atom (.symbol '0')) (.atom (.symbol '0'))
  | .infinite false => .atom (.control "infty")
  | .infinite true => .signed true (.atom (.control "infty"))
  | .finite _ _ _ => ofRun (Decimal.Layout.positional.text x)

/-- Parts with commas between them. -/
def sequence : List Grouping → Grouping
  | [] => .empty
  | [g] => g
  | g :: h :: rest => .linked .comma g (sequence (h :: rest))

theorem pieces_ofRun : (ofRun s).pieces = Piece.ofRun s := by
  unfold ofRun Piece.ofRun
  cases unsigned? s <;> rfl

@[simp] theorem grouped_ofRun : (ofRun s).Grouped := by
  unfold ofRun
  cases unsigned? s <;> simp [Grouped, Piece.isAtom]

theorem pieces_ofDecimal :
    (ofDecimal x).pieces = Mark.piecesOf (Formula.decimalMarkup x) := by
  unfold ofDecimal Formula.decimalMarkup
  cases Decimal.Binary.ofFloat x with
  | nan => rfl
  | infinite negative => cases negative <;> rfl
  | finite => simp [Mark.piecesOf, Mark.pieces, pieces_ofRun]

@[simp] theorem grouped_ofDecimal : (ofDecimal x).Grouped := by
  unfold ofDecimal
  cases Decimal.Binary.ofFloat x with
  | nan => simp [fraction, Grouped, Frame.isAffix, Frame.isPrimary, Frame.left, Piece.isAtom]
  | infinite negative => cases negative <;> simp [Grouped, Piece.isAtom]
  | finite => exact grouped_ofRun _

theorem signLevel_le_ofRun : signLevel ≤ (ofRun s).level := by
  unfold ofRun
  cases unsigned? s <;> simp

theorem signLevel_le_ofDecimal : signLevel ≤ (ofDecimal x).level := by
  unfold ofDecimal
  cases Decimal.Binary.ofFloat x with
  | nan => simp [fraction, Frame.level]
  | infinite negative => cases negative <;> simp
  | finite => exact signLevel_le_ofRun _

@[simp] theorem le_ofDecimal {n : Nat} {x : Float} (h : n ≤ signLevel) : n ≤ (ofDecimal x).level :=
  Nat.le_trans h (signLevel_le_ofDecimal x)

end Grouping

def Connector.link? : Connector → Option Link
  | equals => some .equals
  | plus => some .plus
  | minus => some .minus
  | times => some .times
  | colon => some .colon
  | arrow => some .arrow
  | forEach => some .forEach
  | withBinding => some .withBinding
  | _ => none

namespace Formula

mutual

/-- The tree of how a formula is grouped, for the formulas that expressions and actions have. -/
def grouping? : Formula → Option Grouping
  | joined c lhs rhs =>
    match c.link? with
    | some k => do
      let l ← lhs.grouping?
      let r ← rhs.grouping?
      return .linked k l r
    | none =>
      match c, rhs with
      | .member, letter x => do
        let l ← lhs.grouping?
        return .member l x
      | _, _ => none
  | ordered lhs r rhs [] => do
    let a ← lhs.grouping?
    let b ← rhs.grouping?
    return .linked (.ordered r) a b
  | positive value => do
    let g ← value.grouping?
    return .signed false g
  | negative value => do
    let g ← value.grouping?
    return .signed true g
  | call callee args => do
    let c ← callee.grouping?
    let as ← args.grouping?
    return .affixed (.bracket .paren) c as
  | index subject number => do
    let s ← subject.grouping?
    let n ← number.grouping?
    return .affixed (.bracket .square) s n
  | bracketed b content => do
    let c ← content.grouping?
    return .enclosed (.bracket b) c
  | subscript base script => do
    let b ← base.grouping?
    let s ← script.grouping?
    return .affixed .subscript b s
  | superscript base script => do
    let b ← base.grouping?
    let s ← script.grouping?
    return .affixed .superscript b s
  | sequence items => do
    let gs ← groupings? items
    return .sequence gs
  | fraction numerator denominator => do
    let n ← numerator.grouping?
    let d ← denominator.grouping?
    return .fraction n d
  | ellipsis lhs (some rhs) => do
    let l ← lhs.grouping?
    let r ← rhs.grouping?
    return .linked .ellipsis l r
  | letter c => if c.isAlphanum then some (.atom (.symbol c)) else none
  | decimal x => some (.ofDecimal x)
  | command name => some (.atom (.name name))
  | word s => some (.ofRun s)
  | _ => none

def groupings? : List Formula → Option (List Grouping)
  | [] => some []
  | f :: fs => do
    let g ← f.grouping?
    let gs ← groupings? fs
    return g :: gs

end

section Forms

variable {a b : Formula} {g h : Grouping} (ha : a.grouping? = some g) (hb : b.grouping? = some h)

include ha

theorem grouping?_unary (k : Grouping → Grouping) :
    (do let l ← a.grouping?; return k l) = some (k g) := by
  rw [ha]
  rfl

theorem grouping?_positive : (positive a).grouping? = some (.signed false g) :=
  grouping?_unary ha (.signed false)

theorem grouping?_negative : (negative a).grouping? = some (.signed true g) :=
  grouping?_unary ha (.signed true)

theorem grouping?_bracketed (b : Bracket) :
    (bracketed b a).grouping? = some (.enclosed (.bracket b) g) :=
  grouping?_unary ha (.enclosed (.bracket b))

theorem grouping?_member (c : Char) :
    (joined .member a (letter c)).grouping? = some (.member g c) :=
  grouping?_unary ha (.member · c)

include hb

theorem grouping?_binary (k : Grouping → Grouping → Grouping) :
    (do let l ← a.grouping?; let r ← b.grouping?; return k l r) = some (k g h) := by
  rw [ha, hb]
  rfl

theorem grouping?_joined {c : Connector} {k : Link} (hk : c.link? = some k) :
    (joined c a b).grouping? = some (.linked k g h) := by
  simp [grouping?, hk, ha, hb]

theorem grouping?_equality : (equality a b).grouping? = some (.linked .equals g h) :=
  grouping?_joined ha hb rfl

theorem grouping?_branch : (branch a b).grouping? = some (.linked .colon g h) :=
  grouping?_joined ha hb rfl

theorem grouping?_ordered (r : Relation) :
    (ordered a r b []).grouping? = some (.linked (.ordered r) g h) :=
  grouping?_binary ha hb (.linked (.ordered r))

theorem grouping?_ellipsis : (ellipsis a (some b)).grouping? = some (.linked .ellipsis g h) :=
  grouping?_binary ha hb (.linked .ellipsis)

theorem grouping?_call : (call a b).grouping? = some (.affixed (.bracket .paren) g h) :=
  grouping?_binary ha hb (.affixed (.bracket .paren))

theorem grouping?_index : (index a b).grouping? = some (.affixed (.bracket .square) g h) :=
  grouping?_binary ha hb (.affixed (.bracket .square))

theorem grouping?_superscript : (superscript a b).grouping? = some (.affixed .superscript g h) :=
  grouping?_binary ha hb (.affixed .superscript)

theorem grouping?_fraction : (fraction a b).grouping? = some (.fraction g h) :=
  grouping?_binary ha hb .fraction

theorem grouping?_pair : (sequence [a, b]).grouping? = some (.linked .comma g h) := by
  simp [grouping?, groupings?, ha, hb, Grouping.sequence]

theorem grouping?_piecewise :
    (piecewise [a, b]).grouping? = some (.enclosed (.bracket .curly) (.linked .comma g h)) :=
  grouping?_bracketed (grouping?_pair ha hb) .curly

end Forms

theorem grouping?_decimal : (decimal x).grouping? = some (.ofDecimal x) := rfl

variable {fs : List Formula} {gs : List Grouping} {f : Formula} {g : Grouping}

theorem grouping?_sequence (h : groupings? fs = some gs) :
    (sequence fs).grouping? = some (.sequence gs) := by
  simp [grouping?, h]

theorem groupings?_concat (hgs : groupings? fs = some gs) (hg : f.grouping? = some g) :
    groupings? (fs ++ [f]) = some (gs ++ [g]) := by
  induction fs generalizing gs with
  | nil =>
    cases hgs
    simp [groupings?, hg]
  | cons f' fs ih =>
    obtain ⟨g', hg', hgs⟩ := bind_eq_some_iff.1 hgs
    obtain ⟨gs', hgs', hgs⟩ := bind_eq_some_iff.1 hgs
    cases hgs
    simp [groupings?, hg', ih hgs']

attribute [local simp] markup Grouping.pieces Mark.piecesOf Mark.pieces

theorem piecesOf_link {c : Connector} {k : Link} (h : c.link? = some k) :
    Mark.piecesOf c.marks = [k.piece] := by
  cases c <;> cases h <;> rfl

theorem pieces_mark (r : Relation) : r.mark.pieces = [(Link.ordered r).piece] := by
  cases r <;> rfl

mutual

theorem piecesOf_markup {g : Grouping} :
    (f : Formula) → f.grouping? = some g → Mark.piecesOf f.markup = g.pieces
  | joined c lhs rhs, h => by
    unfold grouping? at h
    split at h
    case h_1 k hk =>
      obtain ⟨l, hl, h⟩ := bind_eq_some_iff.1 h
      obtain ⟨r, hr, h⟩ := bind_eq_some_iff.1 h
      cases h
      simp [piecesOf_markup lhs hl, piecesOf_markup rhs hr, piecesOf_link hk]
    case h_2 =>
      split at h
      case h_1 x =>
        obtain ⟨l, hl, h⟩ := bind_eq_some_iff.1 h
        cases h
        simp [piecesOf_markup lhs hl, Connector.marks]
      case h_2 => cases h
  | ordered lhs r rhs links, h => by
    cases links with
    | cons => cases h
    | nil =>
      obtain ⟨a, ha, h⟩ := bind_eq_some_iff.1 h
      obtain ⟨b, hb, h⟩ := bind_eq_some_iff.1 h
      cases h
      simp [linksMarkup, piecesOf_markup lhs ha, piecesOf_markup rhs hb, pieces_mark]
  | positive a, h | negative a, h | bracketed _ a, h => by
    obtain ⟨g, hg, h⟩ := bind_eq_some_iff.1 h
    cases h
    simp [Frame.around, Piece.sign, piecesOf_markup a hg]
  | call a b, h | index a b, h | subscript a b, h | superscript a b, h | fraction a b, h => by
    obtain ⟨g, hg, h⟩ := bind_eq_some_iff.1 h
    obtain ⟨g', hg', h⟩ := bind_eq_some_iff.1 h
    cases h
    simp [Grouping.fraction, Frame.around, piecesOf_markup a hg, piecesOf_markup b hg']
  | sequence items, h => by
    obtain ⟨gs, hgs, h⟩ := bind_eq_some_iff.1 h
    cases h
    exact piecesOf_itemsMarkup items hgs
  | ellipsis lhs rhs, h => by
    cases rhs with
    | none => cases h
    | some rhs =>
      obtain ⟨a, ha, h⟩ := bind_eq_some_iff.1 h
      obtain ⟨b, hb, h⟩ := bind_eq_some_iff.1 h
      cases h
      have hdots : Piece.ofRun "..." = [Link.ellipsis.piece] := by decide
      simp [optionalMarkup, piecesOf_markup lhs ha, piecesOf_markup rhs hb, hdots]
  | letter c, h => by
    unfold grouping? at h
    split at h <;> cases h
    simp
  | decimal x, h => by
    cases h
    rw [markup, Grouping.pieces_ofDecimal]
  | command name, h => by
    cases h
    simp
  | word s, h => by
    cases h
    simp [Grouping.pieces_ofRun]
  | factorial _, h | prime _, h | sqrt _, h | nthRoot _ _, h | mixed _ _ _, h | derivative _ _, h
  | integral _ _ _ _, h | sum _ _ _, h | product _ _ _, h => by cases h

theorem piecesOf_itemsMarkup {gs : List Grouping} :
    (fs : List Formula) → groupings? fs = some gs →
      Mark.piecesOf (itemsMarkup fs) = (Grouping.sequence gs).pieces
  | [], h => by
    cases h
    rfl
  | f :: fs, h => by
    obtain ⟨g, hg, h⟩ := bind_eq_some_iff.1 h
    obtain ⟨gs, hgs, h⟩ := bind_eq_some_iff.1 h
    cases h
    have hrest := piecesOf_itemsMarkup fs hgs
    have hf := piecesOf_markup f hg
    cases fs with
    | nil =>
      cases hgs
      simpa [itemsMarkup, Grouping.sequence] using hf
    | cons f' fs =>
      obtain ⟨g', hg', hgs⟩ := bind_eq_some_iff.1 hgs
      obtain ⟨gs', hgs', hgs⟩ := bind_eq_some_iff.1 hgs
      cases hgs
      simp [itemsMarkup, Grouping.sequence, Link.piece, hf, hrest]

end

theorem read_markup_iff (h : f.grouping? = some g) :
    Grouping.read f.markup = some g ↔ g.Grouped := by
  rw [Grouping.read_eq_some_iff, piecesOf_markup f h]
  exact ⟨And.left, fun hg => ⟨hg, rfl⟩⟩

end Formula

end Diagram
