/-!
# YAML trees

The trees that project settings are written as: scalars, lists and mappings.  A plain scalar
may stand for something else than its text; a quoted one never does.
-/

namespace Diagram

inductive Yaml where
  /-- A scalar with its tag, empty if it has none. -/
  | scalar (text : String) (plain : Bool) (tag : String)
  | list (items : List Yaml)
  | mapping (entries : List (Yaml × Yaml))
deriving Repr, Inhabited

namespace Yaml

/-- The tree that stands where nothing is written. -/
def null : Yaml := scalar "" true ""

/-- The tree with a tag, unless that is empty; only scalars keep it. -/
def tagged (tag : String) : Yaml → Yaml
  | scalar text plain old => scalar text plain (if tag.isEmpty then old else tag)
  | y => y

end Yaml

end Diagram
