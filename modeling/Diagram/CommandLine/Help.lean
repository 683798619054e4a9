import Diagram.CommandLine.Options

/-!
# The help text

The help text shows what the program is, how it is called, and a table of its options.
-/

namespace Diagram.CommandLine

/-- What a program says of itself. -/
structure About where
  program : String
  version : String
  copying : String
  tagline : String
  /-- Whether the program greets its user. -/
  verbose : Bool
deriving DecidableEq, Repr

namespace Flag

/-- An option as it is written on the command line. -/
def usage (f : Flag) : String :=
  match f.arity with
  | .none => "--" ++ f.name
  | _ => "--" ++ f.name ++ " " ++ f.name.toUpper

end Flag

namespace About

def columnWidth : Nat := 25

/-- A row of the table.  What does not fit into the left column stands on a line of its own. -/
def row (left right : String) : String :=
  let entry := "  " ++ left
  let gap :=
    if entry.length + 2 < columnWidth then String.ofList (.replicate (columnWidth - entry.length) ' ')
    else "\n" ++ String.ofList (.replicate columnWidth ' ')
  entry ++ gap ++ right ++ "\n"

def rows : List (String × String) :=
  Flag.all.map (fun f => (f.usage, f.help)) ++
    [("--help, -h", "display this help and exit"), ("--version", "display version and exit")]

def help (a : About) : String :=
  let tagline := if a.tagline.isEmpty then "" else a.tagline ++ "\n"
  let usages := Flag.all.map fun f => " [" ++ f.usage ++ "]"
  tagline ++ a.version ++ "\nUsage: " ++ a.program ++ String.join usages ++ "\n\nOptions:\n" ++
    String.join (rows.map fun (left, right) => row left right)

def greeting (a : About) : String :=
  s!"This is: {a.program}, version: {a.version}\n" ++
  "Copyright (C) James Shubin and the project contributors\n" ++
  "Written by James Shubin <james@shubin.ca> and the project contributors\n"

end About

end Diagram.CommandLine
