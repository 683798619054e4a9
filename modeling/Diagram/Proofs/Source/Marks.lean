import Diagram.Proofs.Text.Decoded
import Diagram.Source.Location
import Mathlib.Data.List.Induction

/-!
# Locations of a source

A location marks an offset of a source if its line and its column are those of the offset: one
more than the line feeds before it, and one more than the characters behind the last of them.
The locations that are reached by moving over the glyphs of a source are of this kind.

Main statement: `Location.marks_past`.
-/

namespace Diagram

open Text

/-- The line of an offset: one more than the number of line feeds before it. -/
def lineAt (source : List UInt8) (offset : Nat) : Nat :=
  1 + (Glyph.decode (source.take offset)).countP fun g => g.char == '\n'

/-- The column of an offset: one more than the number of characters between the last line feed
before it and the offset. -/
def columnAt (source : List UInt8) (offset : Nat) : Nat :=
  1 + ((Glyph.decode (source.take offset)).reverse.takeWhile fun g => g.char != '\n').length

namespace Location

/-- A location of a source: its offset lies in the source and has its line and its column. -/
structure Marks (source : List UInt8) (l : Location) : Prop where
  index_le : l.index ≤ source.length
  line_eq : l.line = lineAt source l.index
  column_eq : l.column = columnAt source l.index

theorem past_concat (l : Location) (gs : List Glyph) (g : Glyph) :
    l.past (gs ++ [g]) = (l.past gs).after g := by
  simp [past_append]

theorem line_past (l : Location) (gs : List Glyph) :
    (l.past gs).line = l.line + (gs.countP fun g => g.char == '\n') := by
  induction gs using List.reverseRecOn with
  | nil => simp
  | append_singleton gs g ih =>
    rw [past_concat]
    by_cases hfeed : g.char = '\n'
    · simp [after, hfeed, ih, Int.add_assoc]
    · simp [after, hfeed, ih]

theorem column_past (gs : List Glyph) :
    (start.past gs).column = 1 + (gs.reverse.takeWhile fun g => g.char != '\n').length := by
  induction gs using List.reverseRecOn with
  | nil => rfl
  | append_singleton gs g ih =>
    rw [past_concat]
    by_cases hfeed : g.char = '\n'
    · simp [after, hfeed]
    · simp [after, hfeed, ih]
      omega

theorem index_start_past (gs : List Glyph) : (start.past gs).index = (Glyph.bytesOf gs).length := by
  rw [index_past]
  simp [start]

/-- Moving over the first glyphs of a source leads to a location of the source. -/
theorem marks_past {source : List UInt8} {before behind : List Glyph}
    (h : Glyph.decode source = before ++ behind) : (start.past before).Marks source := by
  have htake : Glyph.decode (source.take (start.past before).index) = before := by
    rw [index_start_past, Glyph.take_eq_bytesOf h, Glyph.decode_bytesOf_start h]
  refine ⟨?_, ?_, ?_⟩
  · have hsource : source = Glyph.bytesOf before ++ Glyph.bytesOf behind := by
      rw [← Glyph.bytesOf_append, ← h, Glyph.bytesOf_decode]
    rw [index_start_past]
    conv => rhs; rw [hsource]
    simp
  · rw [lineAt, htake, line_past]
    simp [start]
  · rw [columnAt, htake, column_past]
    simp

end Location

end Diagram
