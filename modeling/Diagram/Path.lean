/-!
# Paths

Paths with slashes, handled as text: nothing here looks at files.
-/

namespace Diagram.Path

def pieces (p : String) : List String :=
  split p.toList |>.map String.ofList
where
  split : List Char → List (List Char)
    | [] => [[]]
    | c :: cs =>
      match split cs with
      | [] => [[]]
      | piece :: rest => if c = '/' then [] :: piece :: rest else (c :: piece) :: rest

def isAbsolute (p : String) : Bool :=
  p.toList.head? == some '/'

/-- Whether a path ends with a slash, and so names a directory. -/
def endsWithSlash (p : String) : Bool :=
  p.toList.getLast? == some '/'

def withSlash (p : String) : String :=
  if endsWithSlash p then p else p ++ "/"

/-- Goes from a place, given by its pieces from the last to the first, along one more piece.  A
step up undoes the piece before it, and at the root it does nothing. -/
def push (rooted : Bool) (place : List String) (piece : String) : List String :=
  if piece = "" || piece = "." then place
  else if piece = ".." then
    match place with
    | [] => if rooted then [] else [".."]
    | last :: rest => if last = ".." then ".." :: place else rest
  else piece :: place

/-- The shortest path to the same place. -/
def clean (p : String) : String :=
  let rooted := isAbsolute p
  let place := ((pieces p).foldl (push rooted) []).reverse
  if rooted then "/" ++ "/".intercalate place
  else if place.isEmpty then "."
  else "/".intercalate place

def directory (p : String) : String :=
  clean ("/".intercalate ((pieces p).dropLast ++ [""]))

def base (p : String) : String :=
  if p.isEmpty then "."
  else (((pieces p).filter (· ≠ "")).getLast?).getD "/"

/-- The path that starts at the place of the first and goes on along the second. -/
def join (a b : String) : String :=
  if a.isEmpty then (if b.isEmpty then "" else clean b)
  else if b.isEmpty then clean a
  else clean (a ++ "/" ++ b)

/-- The path from the root, for one that may start at a working directory.  A slash at the end
stays, and a path that starts at the root is kept as it is written. -/
def absolute (cwd p : String) : String :=
  if isAbsolute p then p
  else if endsWithSlash p then withSlash (join cwd p)
  else join cwd p

/-- The shortest path from the root, for one that may start at a working directory. -/
def absoluteClean (cwd p : String) : String :=
  if isAbsolute p then clean p else join cwd p

def endsWith (p suffix : String) : Bool :=
  suffix.toList.isSuffixOf p.toList

/-- The path from a directory along another path, which cannot leave the directory. -/
def within (root p : String) : String :=
  join root (clean ("/" ++ p))

/-- The characters of a path without the extension of its last piece: the last dot of that piece
and all that follows. -/
def stem (p : String) : List Char :=
  let reversed := p.toList.reverse
  let tail := reversed.takeWhile (· ≠ '/')
  if tail.contains '.' then (reversed.drop ((tail.takeWhile (· ≠ '.')).length + 1)).reverse
  else p.toList

def withExtension (p extension : String) : String :=
  String.ofList (stem p) ++ extension

end Diagram.Path
