/-!
# Project settings

What a project says of the document that it is compiled to.
-/

namespace Diagram

/-- The titles of the folders of a document. -/
structure FolderTitles where
  geometry : String
  actions : String
  definitions : String
  display : String
deriving DecidableEq, Repr, Inhabited

/-- The settings of a project. -/
structure Settings where
  /-- The path of the main source, relative to the settings. -/
  main : String
  /-- The version of the document format. -/
  version : Int64
  /-- The calculator that the document is for. -/
  product : String
  /-- Whether the ticker runs from the start. -/
  playing : Bool
  folders : FolderTitles
deriving DecidableEq, Repr, Inhabited

namespace Settings

def default : Settings :=
  ⟨"main.fig", 11, "geometry-calculator", true, ⟨"geometry", "Actions", "Definitions", "Display"⟩⟩

end Settings

end Diagram
