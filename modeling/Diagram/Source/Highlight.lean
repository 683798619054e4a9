import Diagram.Source.Location

/-!
# Underlined source lines

A diagnostic shows the line that it points at, with the columns that it covers underlined
by carets.  The indentation of the line is repeated as it stands, so that tabs line up.
-/

namespace Diagram

/-- The lines of a text, one more than it has line feeds. -/
def linesOf : List Char → List (List Char)
  | [] => [[]]
  | c :: cs =>
    if c = '\n' then [] :: linesOf cs
    else match linesOf cs with
      | [] => [[c]]
      | line :: lines => (c :: line) :: lines

namespace Area

/-- A line as it is shown: without carriage returns at its end. -/
def shownLine (line : List Char) : List Char :=
  (line.reverse.dropWhile (· == '\r')).reverse

def indentOf (line : List Char) : List Char :=
  line.takeWhile fun c => c == ' ' || c == '\t'

/-- The number of carets under an area: its width if it ends to the right on the same line. -/
def caretCount (start : Location) (stop : Option Location) : Nat :=
  match stop with
  | some e => if e.line = start.line ∧ start.column < e.column then (e.column - start.column).toNat else 1
  | none => 1

/-- What stands under the shown line: carets, or a note if the area goes on below it. -/
def carets (start : Location) (stop : Option Location) : List Char :=
  match stop with
  | some e =>
    if start.line < e.line then "^ from here ...".toList
    else List.replicate (caretCount start stop) '^'
  | none => List.replicate (caretCount start stop) '^'

/-- The line of an area with the area underlined, or nothing if the source has no such line. -/
def highlight (a : Area) (source : List Char) : String :=
  match a.start with
  | none => ""
  | some start =>
    if start.line < 1 then ""
    else match (linesOf source)[(start.line - 1).toNat]? with
      | none => ""
      | some line =>
        let shown := shownLine line
        let indent := indentOf shown
        let blanks := List.replicate (start.column - 1 - indent.length).toNat ' '
        String.ofList (shown ++ '\n' :: indent ++ blanks ++ carets start a.stop ++ ['\n'])

end Area

/-- A cause of failure together with the stretch of source that it concerns. -/
structure Located (κ : Type) where
  cause : κ
  area : Area
deriving DecidableEq, Repr

/-- A message for the user, with the stretch of source that it concerns. -/
structure Diagnostic where
  message : String
  area : Area
deriving DecidableEq, Repr

/-- The message with the location in front, if it has one. -/
def Diagnostic.text (d : Diagnostic) : String :=
  match d.area.start with
  | none => d.message
  | some l => s!"{l.text} {d.message}"

end Diagram
