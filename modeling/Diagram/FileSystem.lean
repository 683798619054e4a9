import Diagram.NameMap
import Diagram.Path

/-!
# File systems

A file system is a map from paths to files and directories.  Every way to write one and the
same path leads to the same entry, and a file that is written brings its directories into
being.  What is a directory can be read like an empty file.
-/

namespace Diagram

/-- A file or a directory. -/
structure FileSystem.Node where
  content : List UInt8
  isDirectory : Bool
deriving DecidableEq, Repr, Inhabited

/-- A map from paths to files and directories. -/
structure FileSystem where
  nodes : NameMap FileSystem.Node

namespace FileSystem

def Node.directory : Node := ⟨[], true⟩

def Node.file (content : List UInt8) : Node := ⟨content, false⟩

def empty : FileSystem :=
  ⟨NameMap.empty.insert "/" .directory⟩

/-- Why a path cannot be used. -/
inductive Fault where
  | missing (path : String)
  | notDirectory (path : String)
deriving DecidableEq, Repr

def Fault.message : Fault → String
  | missing path => s!"open {path}: file does not exist"
  | notDirectory path => s!"readdir {path}: not a dir"

/-- The one way to write a path that the map knows. -/
def canonical (path : String) : String :=
  let p := Path.clean path
  if p = "." || p = ".." then "/" else p

def node? (fs : FileSystem) (path : String) : Option Node :=
  fs.nodes.get? (canonical path)

def contains (fs : FileSystem) (path : String) : Bool :=
  (fs.node? path).isSome

def isDirectory (fs : FileSystem) (path : String) : Bool :=
  (fs.node? path).any (·.isDirectory)

def find (fs : FileSystem) (path : String) : Except Fault Node :=
  match fs.node? path with
  | some n => .ok n
  | none => .error (.missing (canonical path))

def read (fs : FileSystem) (path : String) : Except Fault (List UInt8) :=
  (fs.find path).map (·.content)

/-- The directories above a path in the map, the nearest first. -/
def above (path : String) : (depth : Nat) → List String
  | 0 => []
  | depth + 1 =>
    let parent := Path.directory path
    if parent = path || canonical parent ≠ parent then []
    else parent :: above parent depth

def addDirectory (nodes : NameMap Node) (path : String) : NameMap Node :=
  nodes.insert path { (nodes.get? path).getD .directory with isDirectory := true }

/-- Puts a file or directory at a path, and makes directories of all paths above. -/
def put (fs : FileSystem) (path : String) (n : Node) : FileSystem :=
  let p := canonical path
  ⟨((above p (Path.pieces p).length).foldl addDirectory fs.nodes).insert p n⟩

def write (fs : FileSystem) (path : String) (content : List UInt8) : FileSystem :=
  fs.put path (.file content)

/-- Makes a directory unless there is something at its path already. -/
def makeDirectory (fs : FileSystem) (path : String) : FileSystem :=
  if fs.contains path then fs else fs.put path .directory

def children (fs : FileSystem) (path : String) : List (String × Node) :=
  let p := canonical path
  fs.nodes.entries.filter fun e => e.1 != p && Path.directory e.1 == p

/-- The lines of a directory listing, below the given lines of its own. -/
def listing (fs : FileSystem) (path : String) (margin : String) :
    (depth : Nat) → Except Fault String
  | 0 => .ok ""
  | depth + 1 => do
    let n ← fs.find path
    if !n.isDirectory then throw (.notDirectory (canonical path))
    let entries := fs.children path
    let lines ← entries.zipIdx.mapM fun (e, i) => do
      let isLast := i + 1 = entries.length
      let name := Path.base e.1
      let header := margin ++ if isLast then "└── " else "├── "
      if e.2.isDirectory then
        let inner ← fs.listing (Path.join path name)
          (margin ++ if isLast then "    " else "│   ") depth
        return header ++ name ++ "/\n" ++ inner
      else return header ++ name ++ "\n"
    return String.join lines

def tree (fs : FileSystem) (path : String) : Except Fault String :=
  (fs.listing (Path.clean path) "" (fs.nodes.size + 1)).map (".\n" ++ ·)

/-- The files below a directory, directory by directory in the order of the names. -/
def filesBelow (fs : FileSystem) (path : String) : (depth : Nat) → List (String × List UInt8)
  | 0 => []
  | depth + 1 =>
    (fs.children path).flatMap fun (p, n) =>
      if n.isDirectory then fs.filesBelow p depth else [(p, n.content)]

def files (fs : FileSystem) : List (String × List UInt8) :=
  fs.filesBelow "/" fs.nodes.size

def changes (before after : FileSystem) : List (String × List UInt8) :=
  after.files.filter fun (path, content) =>
    match before.node? path with
    | some n => n.isDirectory || n.content ≠ content
    | none => true

end FileSystem

end Diagram
