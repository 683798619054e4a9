import Diagram.Source.Highlight

/-!
# Margins

A text that is written in the middle of something else has a margin of tabs, which is no part
of it.
-/

namespace Diagram.Text

/-- The margin of a text: the tabs at the start of its first line that is not empty. -/
def marginOf : List (List Char) → List Char
  | [] => []
  | [] :: lines => marginOf lines
  | line :: _ => line.takeWhile (· = '\t')

def dropMargin (margin line : List Char) : List Char :=
  if margin.isPrefixOf line then line.drop margin.length else line

/-- The lines of a text without its first line if that is empty, and without the margin. -/
def unindentLines (lines : List (List Char)) : List (List Char) :=
  let lines := match lines with
    | [] :: rest => rest
    | _ => lines
  lines.map (dropMargin (marginOf lines))

def unindent (s : String) : String :=
  "\n".intercalate ((unindentLines (linesOf s.toList)).map String.ofList)

end Diagram.Text
