import Diagram.FileSystem
import Diagram.Settings.OfYaml

/-!
# Inputs

An input names what to compile: the standard input, a settings file, a source, or a directory
that has one of them.  Any other input is code itself.  Settings beside a source apply to it,
and in a directory the settings come before the main source.
-/

namespace Diagram

/-- A program that is still to be compiled. -/
structure Input where
  /-- The path of the source, or a placeholder for code that has none. -/
  name : String
  content : List UInt8
  settings : Settings

namespace Input

def settingsName : String := "figura.yaml"

/-- The name of the main source of a directory without settings. -/
def mainName : String := Settings.default.main

def extension : String := ".fig"

/-- Why there is nothing to compile. -/
inductive Failure where
  | empty
  | sourceMissing (path : String) (f : FileSystem.Fault)
  | settingsMissing (path : String) (f : FileSystem.Fault)
  | settingsFaulty (path : String) (f : Settings.Fault)
  | directoryMissing (path : String) (f : FileSystem.Fault)
  | notDirectory (path : String)
  | nothingInDirectory (path : String)
  | notCode (text : String)
deriving DecidableEq, Repr

def Failure.message : Failure → String
  | empty => "input is empty"
  | sourceMissing path f => s!"can't read from file: `{path}`: {f.message}"
  | settingsMissing path f => s!"file: `{path}` does not exist: {f.message}"
  | settingsFaulty path f => s!"could not parse metadata file: `{path}`: {f.message}"
  | directoryMissing path f => s!"dir: `{path}` does not exist: {f.message}"
  | notDirectory path => s!"dir: `{path}` is not a dir"
  | nothingInDirectory path =>
    s!"dir: `{path}` has no `{settingsName}` or `{mainName}`"
  | notCode text => s!"unexpected raw code '{text}', is the path correct?"

/-- The characters that stand in code, and hardly ever in a path. -/
def codeChars : List Char := [' ', '\t', '\n', ';', '\x7b', '\x7d']

/-- Whether a text cannot be a mistyped path. -/
def hasCodeChar (cs : List Char) : Bool :=
  cs.any codeChars.contains

def isMistypedPath (cs : List Char) : Bool :=
  !hasCodeChar cs && (".yaml".toList.isSuffixOf cs || cs.contains '/')

def ofCode (name : String) (content : List UInt8) : Except Failure Input :=
  if content.isEmpty then .error .empty
  else
    let cs := (Text.Glyph.decode content).map (·.char)
    if isMistypedPath cs then .error (.notCode (String.ofList cs))
    else .ok ⟨name, content, .default⟩

def loadSettings (fs : FileSystem) (path : String) : Except Failure Settings := do
  let content ← (fs.read path).mapError (.settingsMissing path)
  (Settings.parse content).mapError (.settingsFaulty path)

def loadSource (fs : FileSystem) (path : String) : Except Failure (List UInt8) :=
  (fs.read path).mapError (.sourceMissing path)

/-- The main source that a settings file names, which cannot lie outside of its directory. -/
def mainOf (path : String) (settings : Settings) : String :=
  Path.within (Path.directory path) settings.main

def ofSettingsFile (fs : FileSystem) (path : String) : Except Failure Input := do
  let settings ← loadSettings fs path
  let main := mainOf path settings
  return ⟨main, ← loadSource fs main, settings⟩

def settingsBeside (path : String) : String :=
  Path.withSlash (Path.directory path) ++ settingsName

def ofSource (fs : FileSystem) (path : String) : Except Failure Input := do
  let content ← loadSource fs path
  let settings ← if fs.contains (settingsBeside path) then loadSettings fs (settingsBeside path)
    else pure { Settings.default with main := Path.base path }
  return ⟨path, content, settings⟩

/-- The project or the main source of a directory, whose path ends with a slash. -/
def ofDirectory (fs : FileSystem) (path : String) : Except Failure Input := do
  let node ← (fs.find path).mapError (.directoryMissing path)
  if !node.isDirectory then throw (.notDirectory path)
  if fs.contains (path ++ settingsName) then ofSettingsFile fs (path ++ settingsName)
  else if fs.contains (path ++ mainName) then ofSource fs (path ++ mainName)
  else throw (.nothingInDirectory path)

/-- What an input is, as its text shows. -/
inductive Form where
  | standardInput
  | settingsFile
  | source
  | directory
  | code
deriving DecidableEq, Repr

def formOf (s : String) : Form :=
  if s = "-" then .standardInput
  else if s = settingsName || Path.endsWith s ("/" ++ settingsName) then .settingsFile
  else if Path.endsWith s extension then .source
  else if Path.endsWithSlash s then .directory
  else .code

/-- Reads an input.  Relative paths start at the working directory. -/
def read (fs : FileSystem) (cwd : String) (stdin : List UInt8) (s : String) :
    Except Failure Input :=
  if s.isEmpty then .error .empty
  else
    match formOf s with
    | .standardInput => ofCode "<stdin>" stdin
    | .settingsFile => ofSettingsFile fs (Path.absolute cwd s)
    | .source => ofSource fs (Path.absolute cwd s)
    | .directory => ofDirectory fs (Path.absolute cwd s)
    | .code => ofCode "<code>" s.toUTF8.toList

def isUnnamed (name : String) : Bool :=
  name.toList.head? == some '<'

/-- The paths that can matter for an input, as far as the files that are known tell. -/
def places (fs : FileSystem) (cwd s : String) : List String :=
  let path := Path.absolute cwd s
  let mainsOf (p : String) : List String :=
    match loadSettings fs p with
    | .ok settings => [mainOf p settings]
    | .error _ => []
  match formOf s with
  | .settingsFile => path :: mainsOf path
  | .source => [path, settingsBeside path]
  | .directory =>
    [path, path ++ settingsName, path ++ mainName] ++ mainsOf (path ++ settingsName)
  | _ => []

end Input

end Diagram
