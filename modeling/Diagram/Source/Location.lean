import Diagram.Text.Glyph

/-!
# Locations in a source

A location counts the bytes before it, and gives the line and the column that are shown
to a user.  `Location.after` moves over one glyph, `Location.past` over a list of them.
-/

namespace Diagram

open Text

/-- A position in a source.  Lines and columns count from one; columns count characters. -/
structure Location where
  index : Nat
  line : Int
  column : Int
deriving DecidableEq, Repr, Inhabited

namespace Location

def start : Location := ⟨0, 1, 1⟩

def after (l : Location) (g : Glyph) : Location :=
  if g.char = '\n' then ⟨l.index + g.bytes.length, l.line + 1, 1⟩
  else ⟨l.index + g.bytes.length, l.line, l.column + 1⟩

def past (l : Location) (gs : List Glyph) : Location :=
  gs.foldl after l

/-- Line and column, joined by a colon. -/
def coordinates (l : Location) : String :=
  s!"{l.line}:{l.column}"

/-- The form in which a location stands before a message. -/
def text (l : Location) : String :=
  s!"(line {l.coordinates})"

@[simp] theorem past_nil (l : Location) : l.past [] = l := rfl

@[simp] theorem past_cons (l : Location) (g : Glyph) (gs : List Glyph) :
    l.past (g :: gs) = (l.after g).past gs := rfl

theorem past_append (l : Location) (gs hs : List Glyph) :
    l.past (gs ++ hs) = (l.past gs).past hs := by
  simp [past]

theorem index_after (l : Location) (g : Glyph) : (l.after g).index = l.index + g.bytes.length := by
  unfold after
  split <;> rfl

theorem index_past (l : Location) (gs : List Glyph) :
    (l.past gs).index = l.index + (Glyph.bytesOf gs).length := by
  induction gs generalizing l with
  | nil => simp [Glyph.bytesOf]
  | cons g gs ih => simp [ih, index_after, Glyph.bytesOf, Nat.add_assoc]

end Location

/-- A stretch of a source.  Either end may be unknown. -/
structure Area where
  start : Option Location
  stop : Option Location
deriving DecidableEq, Repr, Inhabited

namespace Area

/-- The stretch of something that stands nowhere in a source. -/
def nowhere : Area := ⟨none, none⟩

def between (start stop : Location) : Area := ⟨some start, some stop⟩

/-- The empty stretch at a location, if there is one. -/
def at? (l : Option Location) : Area := ⟨l, l⟩

def isSet (a : Area) : Bool := a.start.isSome

def byline (a : Area) : String :=
  match a.start, a.stop with
  | none, _ => "<unknown>"
  | some s, none => s!"@ {s.coordinates}"
  | some s, some e => s!"@ {s.coordinates}-{e.coordinates}"

end Area

end Diagram
