import Diagram.Formula

/-!
# Reading markup back

Markup groups what it is made of by the levels at which its connectors bind.  Superscripts,
indices, members and calls bind tightest, then signs, then the connectors from the product down
to `with`.  A grouping is the tree that a reader finds who follows these levels.

Main statement: `Grouping.read_eq_some_iff`.
-/

namespace Diagram

open List Option

/-- What encloses a part of the markup. -/
inductive Frame where
  | bracket (b : Bracket)
  | superscript | subscript | numerator | denominator | group | degree | root
deriving DecidableEq, Repr

/-- A piece of the markup.  A minus sign in front of digits is a piece of its own. -/
inductive Piece where
  | enter (f : Frame)
  | leave (f : Frame)
  | name (s : String)
  | control (s : String)
  | symbol (c : Char)
  | run (s : String)
deriving DecidableEq, Repr

/-- What stands behind the minus sign that a text starts with. -/
def unsigned? (s : String) : Option String :=
  match s.toList with
  | '-' :: rest => some (String.ofList rest)
  | _ => none

def Piece.ofRun (s : String) : List Piece :=
  match unsigned? s with
  | some rest => [.symbol '-', .run rest]
  | none => [.run s]

def Frame.around (f : Frame) (pieces : List Piece) : List Piece :=
  .enter f :: pieces ++ [.leave f]

theorem Frame.around_append (f : Frame) (pieces rest : List Piece) :
    f.around pieces ++ rest = .enter f :: (pieces ++ .leave f :: rest) := by
  simp [around]

namespace Mark

mutual

def pieces : Mark → List Piece
  | group content => Frame.group.around (piecesOf content)
  | root radicand => Frame.root.around (piecesOf radicand)
  | nthRoot index radicand =>
    Frame.degree.around (piecesOf index) ++ Frame.root.around (piecesOf radicand)
  | fraction numerator denominator =>
    Frame.numerator.around (piecesOf numerator) ++ Frame.denominator.around (piecesOf denominator)
  | superscript content => Frame.superscript.around (piecesOf content)
  | subscript content => Frame.subscript.around (piecesOf content)
  | opening b => [.enter (.bracket b)]
  | closing b => [.leave (.bracket b)]
  | operatorName name => [.name name]
  | control name => [.control name]
  | symbol c => [.symbol c]
  | run s => Piece.ofRun s

def piecesOf : List Mark → List Piece
  | [] => []
  | m :: ms => m.pieces ++ piecesOf ms

end

@[simp] theorem piecesOf_append (ms ms' : List Mark) :
    piecesOf (ms ++ ms') = piecesOf ms ++ piecesOf ms' := by
  induction ms with
  | nil => rfl
  | cons m ms ih => simp [piecesOf, ih]

end Mark

/-- What connects two parts. -/
inductive Link where
  | withBinding | forEach | comma | colon | equals | ordered (r : Relation) | arrow | ellipsis
  | plus | minus | times
deriving DecidableEq, Repr

/-! The levels, from the loosest to the tightest.  What is empty is at level zero. -/

@[simp] abbrev signLevel : Nat := 9

@[simp] abbrev powerLevel : Nat := 10

/-- The level of an index, a call, a member or a part that nothing is attached to. -/
@[simp] abbrev tightLevel : Nat := 11

namespace Link

/-- The level of two parts with a connector. -/
def level : Link → Nat
  | withBinding => 1
  | forEach => 2
  | comma => 3
  | colon => 4
  | equals | ordered _ | arrow => 5
  | ellipsis => 6
  | plus | minus => 7
  | times => 8

/-- The least level of the part to the left. -/
def left : Link → Nat
  | withBinding => 1
  | forEach => 3
  | comma => 4
  | colon => 5
  | equals | ordered _ | arrow => 6
  | ellipsis | plus | minus => 7
  | times => 8

/-- The least level of the part to the right. -/
def right : Link → Nat
  | withBinding => 2
  | forEach | comma => 3
  | colon => 5
  | equals | ordered _ | arrow => 6
  | ellipsis => 7
  | plus | minus => 8
  | times => signLevel

def piece : Link → Piece
  | withBinding => .name "with"
  | forEach => .name "for"
  | comma => .symbol ','
  | colon => .symbol ':'
  | equals => .symbol '='
  | ordered .less => .control "lt"
  | ordered .greater => .control "gt"
  | ordered .lessEqual => .control "le"
  | ordered .greaterEqual => .control "ge"
  | arrow => .control "to"
  | ellipsis => .run "..."
  | plus => .symbol '+'
  | minus => .symbol '-'
  | times => .symbol '*'

theorem level_le_left (k : Link) : k.level ≤ k.left := by
  cases k <;> simp [level, left]

theorem level_le_right (k : Link) : k.level ≤ k.right := by
  cases k <;> simp [level, right, signLevel]

theorem right_le (k : Link) : k.right ≤ signLevel := by
  cases k <;> simp [right, signLevel]

theorem left_pos (k : Link) : 0 < k.left := by
  cases k <;> simp [left]

/-- What a connection can stand to the left of binds more loosely than its right part. -/
theorem level_lt_right {k k' : Link} (h : k'.left ≤ k.level) : k'.level < k.right := by
  cases k <;> cases k' <;> simp_all [level, left, right, signLevel]

theorem level_lt_signLevel (k : Link) : k.level < signLevel := by
  cases k <;> simp [level, signLevel]

end Link

/-- The connector that a piece is behind a part. -/
def Piece.link? : Piece → Option Link
  | .name "with" => some .withBinding
  | .name "for" => some .forEach
  | .symbol ',' => some .comma
  | .symbol ':' => some .colon
  | .symbol '=' => some .equals
  | .control "lt" => some (.ordered .less)
  | .control "gt" => some (.ordered .greater)
  | .control "le" => some (.ordered .lessEqual)
  | .control "ge" => some (.ordered .greaterEqual)
  | .control "to" => some .arrow
  | .run "..." => some .ellipsis
  | .symbol '+' => some .plus
  | .symbol '-' => some .minus
  | .symbol '*' => some .times
  | _ => none

theorem Piece.eq_piece_of_link? {s : Piece} {k : Link} (h : s.link? = some k) : s = k.piece := by
  unfold Piece.link? at h
  split at h <;> cases h <;> rfl

/-- Whether a piece stands for itself where a part begins. -/
def Piece.isAtom : Piece → Bool
  | .name _ | .run _ => true
  | .control s => s == "infty"
  | .symbol c => c.isAlphanum
  | _ => false

def Piece.sign (minus : Bool) : Piece :=
  .symbol (if minus then '-' else '+')

namespace Frame

/-- Whether a frame encloses a part of its own. -/
def isPrimary : Frame → Bool
  | superscript | subscript | denominator => false
  | _ => true

/-- Whether a frame is attached to the part before it. -/
def isAffix : Frame → Bool
  | superscript | subscript | denominator | bracket .paren | bracket .square => true
  | _ => false

def level : Frame → Nat
  | superscript => powerLevel
  | _ => tightLevel

/-- The least level of what a frame is attached to.  A superscript has no superscript. -/
def left : Frame → Nat
  | superscript => tightLevel
  | _ => powerLevel

theorem powerLevel_le_left (f : Frame) : powerLevel ≤ f.left := by
  cases f <;> simp [left, powerLevel, tightLevel]

end Frame

/-- The tree of how markup is grouped. -/
inductive Grouping where
  | empty
  | atom (s : Piece)
  | enclosed (f : Frame) (content : Grouping)
  | signed (minus : Bool) (operand : Grouping)
  | member (subject : Grouping) (c : Char)
  | affixed (f : Frame) (subject content : Grouping)
  | linked (k : Link) (lhs rhs : Grouping)
deriving DecidableEq, Repr

namespace Grouping

/-- How tightly a grouping holds together. -/
def level : Grouping → Nat
  | empty => 0
  | atom _ | enclosed _ _ | member _ _ => tightLevel
  | signed _ _ => signLevel
  | affixed f _ _ => f.level
  | linked k _ _ => k.level

@[simp] theorem level_atom (s : Piece) : (atom s).level = tightLevel := rfl

@[simp] theorem level_enclosed (f : Frame) (g : Grouping) : (enclosed f g).level = tightLevel := rfl

@[simp] theorem level_signed (minus : Bool) (g : Grouping) : (signed minus g).level = signLevel :=
  rfl

@[simp] theorem level_member (g : Grouping) (c : Char) : (member g c).level = tightLevel := rfl

@[simp] theorem level_affixed (f : Frame) (g h : Grouping) : (affixed f g h).level = f.level := rfl

@[simp] theorem level_linked (k : Link) (g h : Grouping) : (linked k g h).level = k.level := rfl

def pieces : Grouping → List Piece
  | empty => []
  | atom s => [s]
  | enclosed f content => f.around content.pieces
  | signed minus operand => .sign minus :: operand.pieces
  | member subject c => subject.pieces ++ [.symbol '.', .symbol c]
  | affixed f subject content => subject.pieces ++ f.around content.pieces
  | linked k lhs rhs => lhs.pieces ++ k.piece :: rhs.pieces

/-- No part binds more loosely than its place. -/
def Grouped : Grouping → Prop
  | empty => True
  | atom s => s.isAtom = true
  | enclosed f content => f.isPrimary = true ∧ content.Grouped
  | signed _ operand => signLevel ≤ operand.level ∧ operand.Grouped
  | member subject _ => powerLevel ≤ subject.level ∧ subject.Grouped
  | affixed f subject content =>
    f.isAffix = true ∧ f.left ≤ subject.level ∧ subject.Grouped ∧ content.Grouped
  | linked k lhs rhs =>
    k.left ≤ lhs.level ∧ k.right ≤ rhs.level ∧ lhs.Grouped ∧ rhs.Grouped

instance decidableGrouped : (g : Grouping) → Decidable g.Grouped
  | empty => isTrue trivial
  | atom s => inferInstanceAs (Decidable (s.isAtom = true))
  | enclosed _ content =>
    have := decidableGrouped content
    inferInstanceAs (Decidable (_ ∧ _))
  | signed _ operand =>
    have := decidableGrouped operand
    inferInstanceAs (Decidable (_ ∧ _))
  | member subject _ =>
    have := decidableGrouped subject
    inferInstanceAs (Decidable (_ ∧ _))
  | affixed _ subject content =>
    have := decidableGrouped subject
    have := decidableGrouped content
    inferInstanceAs (Decidable (_ ∧ _ ∧ _ ∧ _))
  | linked _ lhs rhs =>
    have := decidableGrouped lhs
    have := decidableGrouped rhs
    inferInstanceAs (Decidable (_ ∧ _ ∧ _ ∧ _))

/-- A part that has been begun, with what stands to its left. -/
inductive Part where
  | enclosed (f : Frame)
  | signed (minus : Bool)
  | affixed (f : Frame) (subject : Grouping)
  | linked (k : Link) (lhs : Grouping)

namespace Part

/-- The least level of what is missing. -/
def least : Part → Nat
  | enclosed _ | affixed _ _ => 0
  | signed _ => signLevel
  | linked k _ => k.right

def ending : Part → List Piece
  | enclosed f | affixed f _ => [.leave f]
  | signed _ | linked _ _ => []

def filled : Part → Grouping → Grouping
  | enclosed f, g => .enclosed f g
  | signed minus, g => .signed minus g
  | affixed f subject, g => .affixed f subject g
  | linked k lhs, g => .linked k lhs g

def level (p : Part) : Nat :=
  (p.filled .empty).level

/-- Whether what stands to the left binds tightly enough. -/
def fits : Part → Bool
  | enclosed _ | signed _ => true
  | affixed f subject => f.left ≤ subject.level
  | linked k lhs => k.left ≤ lhs.level

theorem level_filled (p : Part) (g : Grouping) : (p.filled g).level = p.level := by
  cases p <;> rfl

theorem least_le (p : Part) : p.least ≤ signLevel := by
  cases p with
  | linked k lhs => exact k.right_le
  | _ => simp [least]

end Part

/-- What a piece or two are by themselves: an atom, or a member of what has been read so far. -/
def whole? : Option Grouping → List Piece → Option (Grouping × List Piece)
  | none, s :: rest => if s.isAtom then some (.atom s, rest) else none
  | some g, .symbol '.' :: .symbol c :: rest =>
    if powerLevel ≤ g.level then some (.member g c, rest) else none
  | _, _ => none

/-- The part that a piece begins, alone or behind what has been read so far. -/
def part? : Option Grouping → Piece → Option Part
  | none, .enter f => if f.isPrimary then some (.enclosed f) else none
  | none, .symbol '+' => some (.signed false)
  | none, .symbol '-' => some (.signed true)
  | none, _ => none
  | some g, .enter f => if f.isAffix then some (.affixed f g) else none
  | some g, s => s.link?.map (.linked · g)

/-- What has been read so far; nothing is a part only where it stands alone. -/
def finish (least : Nat) : Option Grouping → List Piece → Option (Grouping × List Piece)
  | some g, rest => some (g, rest)
  | none, rest =>
    match least, rest with
    | 0, [] | 0, .leave _ :: _ => some (.empty, rest)
    | _, _ => none

/-- Reads a part of at least a level, and gives what follows it. -/
def readOn (least : Nat) (sofar : Option Grouping) (pieces : List Piece) :
    Option (Grouping × List Piece) :=
  match whole? sofar pieces with
  | some (g, rest) => if rest.length < pieces.length then readOn least (some g) rest else none
  | none =>
    match pieces with
    | [] => finish least sofar []
    | s :: rest =>
      match (part? sofar s).filter fun p => decide (least ≤ p.level) && p.fits with
      | none => finish least sofar (s :: rest)
      | some p =>
        match readOn p.least none rest with
        | none => none
        | some (g, rest') =>
          if rest'.take p.ending.length = p.ending ∧ rest'.length ≤ rest.length then
            readOn least (some (p.filled g)) (rest'.drop p.ending.length)
          else none
termination_by pieces.length

def read (m : Markup) : Option Grouping :=
  match readOn 0 none (Mark.piecesOf m) with
  | some (g, []) => some g
  | _ => none

/-- How a part begins, behind what has been read so far. -/
inductive Begins : Option Grouping → Piece → Part → Prop
  | enclosed {f} (h : f.isPrimary = true) : Begins none (.enter f) (.enclosed f)
  | signed {minus} : Begins none (.sign minus) (.signed minus)
  | affixed {f g} (h : f.isAffix = true) : Begins (some g) (.enter f) (.affixed f g)
  | linked {k g} : Begins (some g) (Link.piece k) (.linked k g)

theorem part?_eq_some_iff {sofar : Option Grouping} {s : Piece} {p : Part} :
    part? sofar s = some p ↔ Begins sofar s p := by
  constructor
  · intro h
    unfold part? at h
    split at h
    · split at h <;> cases h
      exact .enclosed ‹_›
    · cases h
      exact @Begins.signed false
    · cases h
      exact @Begins.signed true
    · cases h
    · split at h <;> cases h
      exact .affixed ‹_›
    · obtain ⟨k, hk, rfl⟩ := map_eq_some_iff.1 h
      rw [Piece.eq_piece_of_link? hk]
      exact .linked
  · intro h
    cases h with
    | enclosed h | affixed h => simp [part?, h]
    | @signed minus => cases minus <;> rfl
    | @linked k g =>
      cases k with
      | ordered r => cases r <;> rfl
      | _ => rfl

variable {least : Nat} {sofar : Option Grouping} {ps rest : List Piece} {g : Grouping} {s : Piece}
  {p : Part}

variable (h : Begins sofar s p)

include h

theorem begins_unique {p' : Part} (h' : Begins sofar s p') : p = p' :=
  Option.some.inj ((part?_eq_some_iff.2 h).symm.trans (part?_eq_some_iff.2 h'))

theorem Begins.grouped_filled (hfits : p.fits)
    (hsofar : ∀ x ∈ sofar, x.Grouped) (hlevel : p.least ≤ g.level) (hg : g.Grouped) :
    (p.filled g).Grouped := by
  cases h with
  | enclosed h => exact ⟨h, hg⟩
  | signed => exact ⟨hlevel, hg⟩
  | affixed h => exact ⟨h, of_decide_eq_true hfits, hsofar _ rfl, hg⟩
  | linked => exact ⟨of_decide_eq_true hfits, hlevel, hsofar _ rfl, hg⟩

theorem Begins.pieces_filled :
    (p.filled g).pieces = sofar.elim [] pieces ++ s :: g.pieces ++ p.ending := by
  cases h <;> simp [Part.filled, Part.ending, pieces, Frame.around]

theorem Begins.whole?_eq_none (ps : List Piece) : whole? sofar (s :: ps) = none := by
  cases h with
  | enclosed | affixed => rfl
  | @signed minus => cases minus <;> rfl
  | @linked k g =>
    cases k with
    | ordered r => cases r <;> rfl
    | _ => rfl

omit h

theorem whole?_sound (h : whole? sofar ps = some (g, rest)) (hsofar : ∀ x ∈ sofar, x.Grouped) :
    g.Grouped ∧ g.level = tightLevel ∧ sofar.elim [] pieces ++ ps = g.pieces ++ rest := by
  unfold whole? at h
  split at h
  · split at h <;> cases h
    exact ⟨‹_›, rfl, rfl⟩
  · split at h <;> cases h
    exact ⟨⟨‹_›, hsofar _ rfl⟩, rfl, by simp [pieces]⟩
  · cases h

theorem finish_sound (h : finish least sofar ps = some (g, rest))
    (hsofar : ∀ x ∈ sofar, x.Grouped ∧ least ≤ x.level) :
    g.Grouped ∧ least ≤ g.level ∧ sofar.elim [] pieces ++ ps = g.pieces ++ rest := by
  unfold finish at h
  split at h
  · cases h
    exact ⟨(hsofar g rfl).1, (hsofar g rfl).2, rfl⟩
  · split at h <;> cases h <;> exact ⟨trivial, Nat.le_refl _, rfl⟩

theorem readOn_sound (h : readOn least sofar ps = some (g, rest)) (hleast : least ≤ signLevel)
    (hsofar : ∀ x ∈ sofar, x.Grouped ∧ least ≤ x.level) :
    g.Grouped ∧ least ≤ g.level ∧ sofar.elim [] pieces ++ ps = g.pieces ++ rest := by
  fun_induction readOn least sofar ps generalizing g rest with
  | case1 least sofar ps x rest' hwhole _ ih =>
    obtain ⟨hx, hlevel, hpieces⟩ := whole?_sound hwhole fun y hy => (hsofar y hy).1
    rw [hpieces]
    refine ih h hleast ?_
    rintro y ⟨⟩
    exact ⟨hx, hlevel ▸ Nat.le_trans hleast (by decide)⟩
  | case2 | case5 | case7 => cases h
  | case3 | case4 => exact finish_sound h hsofar
  | case6 least sofar s rest' p hp x rest'' hx hends _ ihx ih =>
    obtain ⟨hpart, hok⟩ := filter_eq_some_iff.1 hp
    simp only [Bool.and_eq_true, decide_eq_true_eq] at hok
    have hbegins := part?_eq_some_iff.1 hpart
    obtain ⟨hgrouped, hlevel, hpieces⟩ := ihx hx p.least_le nofun
    have hfilled := hbegins.grouped_filled hok.2 (fun y hy => (hsofar y hy).1) hlevel hgrouped
    have hrest := take_append_drop p.ending.length rest''
    rw [hends.1] at hrest
    obtain ⟨hg, hlevel', hall⟩ := ih h hleast (by
      rintro y ⟨⟩
      exact ⟨hfilled, (p.level_filled x).symm ▸ hok.1⟩)
    refine ⟨hg, hlevel', ?_⟩
    rw [← hall, elim_some, hbegins.pieces_filled, append_assoc, hrest]
    simpa using hpieces

theorem readOn_part (hbegins : Begins sofar s p) (hlevel : least ≤ p.level) (hfits : p.fits)
    (h : readOn p.least none ps = some (g, p.ending ++ rest)) :
    readOn least sofar (s :: ps) = readOn least (some (p.filled g)) rest := by
  have hfilter : (part? sofar s).filter (fun p => decide (least ≤ p.level) && p.fits) = some p := by
    simp [part?_eq_some_iff.2 hbegins, Option.filter, hlevel, hfits]
  obtain ⟨-, -, hpieces⟩ := readOn_sound h p.least_le nofun
  have hlength : (p.ending ++ rest).length ≤ ps.length := by
    have hsum := congrArg List.length hpieces
    simp only [elim_none, nil_append, length_append] at hsum ⊢
    omega
  rw [readOn, hbegins.whole?_eq_none]
  simp only [hfilter, h]
  rw [if_pos ⟨take_left, hlength⟩, drop_left]

/-- Reading stops before a piece that does not continue what has been read. -/
theorem readOn_stop (hwhole : whole? (some g) ps = none)
    (h : ∀ s ∈ ps.head?, ∀ p, Begins (some g) s p → p.level < least) :
    readOn least (some g) ps = some (g, ps) := by
  rw [readOn.eq_def, hwhole]
  cases ps with
  | nil => rfl
  | cons s ps =>
    have hnone : (part? (some g) s).filter (fun p => decide (least ≤ p.level) && p.fits) = none := by
      refine filter_eq_none_iff.2 fun p hp => ?_
      have hlevel := h s rfl p (part?_eq_some_iff.1 hp)
      simp [Nat.not_le.2 hlevel]
    simp only [hnone]
    rfl

theorem readOn_end : readOn least (some g) [] = some (g, []) :=
  readOn_stop rfl (by rintro s ⟨⟩)

theorem readOn_leave (f : Frame) (rest : List Piece) :
    readOn least (some g) (.leave f :: rest) = some (g, .leave f :: rest) := by
  refine readOn_stop rfl fun s hs p hp => ?_
  cases hs
  exact nomatch part?_eq_some_iff.2 hp

/-- What follows a part of a level: an end, or something that the part can stand to the left of. -/
inductive Follows (level : Nat) : List Piece → Prop
  | nothing : Follows level []
  | leave {f rest} : Follows level (.leave f :: rest)
  | member {c rest} (h : powerLevel ≤ level) : Follows level (.symbol '.' :: .symbol c :: rest)
  | affix {f rest} (haffix : Frame.isAffix f = true) (h : f.left ≤ level) :
      Follows level (.enter f :: rest)
  | link {k rest} (h : Link.left k ≤ level) : Follows level (k.piece :: rest)

theorem Follows.mono {m n : Nat} (h : Follows m rest) (hmn : m ≤ n) : Follows n rest := by
  cases h with
  | nothing => exact .nothing
  | leave => exact .leave
  | member h => exact .member (Nat.le_trans h hmn)
  | affix haffix h => exact .affix haffix (Nat.le_trans h hmn)
  | link h => exact .link (Nat.le_trans h hmn)

theorem Follows.readOn_stop {level : Nat} (h : Follows level rest) (hlevel : level ≤ signLevel)
    (hlinks : ∀ k : Link, k.left ≤ level → k.level < least) :
    readOn least (some g) rest = some (g, rest) := by
  cases h with
  | nothing => exact readOn_end
  | leave => exact readOn_leave _ _
  | member h => simp only [signLevel, powerLevel] at h hlevel; omega
  | @affix f rest haffix h =>
    have hleft := f.powerLevel_le_left
    simp only [signLevel, powerLevel] at hleft hlevel
    omega
  | @link k rest h =>
    have hbegins : Begins (some g) k.piece (.linked k g) := .linked
    refine Grouping.readOn_stop (hbegins.whole?_eq_none rest) fun s hs p hp => ?_
    cases hs
    rw [begins_unique hp hbegins]
    exact hlinks k h

theorem readOn_pieces (hg : g.Grouped) (hleast : least ≤ signLevel) (hlevel : least ≤ g.level)
    (hrest : Follows g.level rest) :
    readOn least none (g.pieces ++ rest) = readOn least (some g) rest := by
  induction g generalizing least rest with
  | empty =>
    obtain rfl := Nat.le_zero.1 hlevel
    rw [pieces, nil_append]
    cases hrest with
    | nothing => rw [readOn_end, readOn]; rfl
    | leave => rw [readOn_leave, readOn]; rfl
    | member h => cases h
    | @affix f _ _ h => exact absurd (Nat.le_trans f.powerLevel_le_left h) (by decide)
    | @link k _ h => exact absurd k.left_pos (Nat.not_lt.2 h)
  | atom s =>
    have hatom : s.isAtom = true := hg
    rw [pieces, singleton_append, readOn]
    simp [whole?, hatom]
  | enclosed f content ih =>
    have hcontent : readOn 0 none (content.pieces ++ .leave f :: rest) =
        some (content, .leave f :: rest) := by
      rw [ih hg.2 (Nat.zero_le _) (Nat.zero_le _) .leave, readOn_leave]
    rw [pieces, Frame.around_append]
    exact readOn_part (.enclosed hg.1) hlevel rfl hcontent
  | signed minus operand ih =>
    have hoperand : readOn signLevel none (operand.pieces ++ rest) = some (operand, rest) := by
      rw [ih hg.2 (Nat.le_refl _) hg.1 (hrest.mono hg.1),
        hrest.readOn_stop (Nat.le_refl _) fun k _ => k.level_lt_signLevel]
    exact readOn_part .signed hlevel rfl hoperand
  | member subject c ih =>
    obtain ⟨hleft, hsubject⟩ := hg
    have hbelow : least ≤ subject.level := Nat.le_trans hleast (Nat.le_trans (by decide) hleft)
    rw [pieces, append_assoc]
    refine (ih hsubject hleast hbelow (.member hleft)).trans ?_
    have hshorter : rest.length < rest.length + 1 + 1 := by omega
    rw [readOn]
    simp only [whole?, hleft, if_true, length_cons]
    exact if_pos hshorter
  | affixed f subject content ihsubject ihcontent =>
    obtain ⟨haffix, hleft, hsubject, hgcontent⟩ := hg
    have hcontent : readOn 0 none (content.pieces ++ .leave f :: rest) =
        some (content, .leave f :: rest) := by
      rw [ihcontent hgcontent (Nat.zero_le _) (Nat.zero_le _) .leave, readOn_leave]
    have hbelow : least ≤ subject.level :=
      Nat.le_trans hleast (Nat.le_trans (Nat.le_trans (by decide) f.powerLevel_le_left) hleft)
    rw [pieces, append_assoc, Frame.around_append]
    refine (ihsubject hsubject hleast hbelow (.affix haffix hleft)).trans ?_
    exact readOn_part (.affixed haffix) hlevel (decide_eq_true hleft) hcontent
  | linked k lhs rhs ihlhs ihrhs =>
    obtain ⟨hleft, hright, hlhs, hrhs⟩ := hg
    have hend : readOn k.right none (rhs.pieces ++ rest) = some (rhs, rest) := by
      rw [ihrhs hrhs k.right_le hright (hrest.mono (Nat.le_trans k.level_le_right hright)),
        hrest.readOn_stop (Nat.le_of_lt k.level_lt_signLevel) fun k' => Link.level_lt_right]
    have hbelow : least ≤ lhs.level := Nat.le_trans hlevel (Nat.le_trans k.level_le_left hleft)
    rw [pieces, append_assoc]
    refine (ihlhs hlhs hleast hbelow (.link hleft)).trans ?_
    exact readOn_part .linked hlevel (decide_eq_true hleft) hend

/-- Markup is read as a grouping exactly if the grouping has its pieces and no part of it binds more
loosely than its place. -/
theorem read_eq_some_iff {m : Markup} : read m = some g ↔ g.Grouped ∧ g.pieces = Mark.piecesOf m := by
  unfold read
  constructor
  · intro h
    split at h <;> cases h
    rename_i hread
    obtain ⟨hg, -, hpieces⟩ := readOn_sound hread (Nat.zero_le _) nofun
    exact ⟨hg, by simpa using hpieces.symm⟩
  · rintro ⟨hg, hpieces⟩
    have hread := readOn_pieces hg (Nat.zero_le _) (Nat.zero_le _) .nothing
    rw [append_nil, hpieces, readOn_end] at hread
    rw [hread]

end Grouping

end Diagram
