import Diagram.Build
import Diagram.CommandLine.Help

/-!
# The command line

The command line compiles sources one after the other and stops at the first one that fails.
A document goes to the standard output if its source has no path, and otherwise beside its
source, unless the options name a file or a directory for it.
-/

namespace Diagram.CommandLine

/-- All that a run of the program can see and change. -/
structure World where
  /-- The working directory. -/
  cwd : String
  files : FileSystem
  isReadOnly : Bool
  stdin : List UInt8
  stdout : String
  /-- What is told to those who look for errors. -/
  log : List String
  watchable : List String

/-- Why a run fails. -/
inductive Failure where
  | noProgram
  | misbuilt
  | noCopying
  | usage (f : Options.Fault)
  | settingsMissing (f : FileSystem.Fault)
  | settingsFaulty (path : String) (f : Settings.Fault)
  | notWatchable (src : String)
  | notWatched (src path : String)
  | outputNotDirectory
  | build (src : String) (source : List Char) (f : Build.Failure)
  | unnamedOutput (name out : String)
  | readOnly (path : String)

/-- The problem of a source that cannot be built; if it has a place, the text shows that. -/
def report (src : String) (source : List Char) (p : Problem) : Problem :=
  match p.diagnostic? with
  | none => .within src p
  | some d =>
    let shown := d.area.highlight source
    if shown.isEmpty then .within src p
    else .plain (s!"{src}: {p.text}\n" ++ String.ofList shown.toList.dropLast)

def Failure.problem : Failure → Problem
  | noProgram => .plain "this CLI was not run correctly"
  | misbuilt => .plain "program was not compiled correctly"
  | noCopying => .plain "program copyrights were removed, can't run"
  | usage f => .within "cli parse error" (.plain f.message)
  | settingsMissing f => .within "can't open metadata file" (.plain f.message)
  | settingsFaulty path f => .within s!"can't load metadata file: `{path}`" (.plain f.message)
  | notWatchable _ => .plain "can't watch stdin or raw code"
  | notWatched src path =>
    .within s!"can't watch: `{src}`" (.plain s!"stat {path}: no such file or directory")
  | outputNotDirectory =>
    .plain "the output must be a directory when compiling several sources"
  | build src source f => report src source f.problem
  | unnamedOutput name out => .plain s!"can't name the output of {name} in: `{out}`"
  | readOnly path =>
    .within s!"can't make output dir for: `{path}`" (.plain "operation not permitted")

abbrev Session := EStateM Failure World

def print (s : String) : Session Unit :=
  modify fun w => { w with stdout := w.stdout ++ s }

/-- The sources to compile, and where their documents go. -/
structure Job where
  sources : List String
  /-- A file or directory, or nothing. -/
  out : String
  /-- The settings that replace those of the sources. -/
  settings : Option Settings
  debug : Bool

namespace Job

def extension : String := ".json"

def outIsDirectory (j : Job) (files : FileSystem) : Bool :=
  Path.endsWithSlash j.out || files.isDirectory j.out

/-- Where the document of a source goes; nothing stands for the standard output. -/
def destination (j : Job) (files : FileSystem) (name : String) : Except Failure (Option String) :=
  if j.out.isEmpty then
    .ok (if Input.isUnnamed name then none else some (Path.withExtension name extension))
  else if j.outIsDirectory files then
    if Input.isUnnamed name then .error (.unnamedOutput name j.out)
    else .ok (some (Path.within (Path.clean j.out) (Path.withExtension (Path.base name) extension)))
  else .ok (some j.out)

def store (src text : String) : Option String → Session Unit
  | none => print (text ++ "\n")
  | some path => do
    let w ← get
    if w.isReadOnly then throw (.readOnly path)
    let files := w.files.makeDirectory (Path.directory path)
    set { w with files := files.write path text.toUTF8.toList }
    print s!"compiled {src} -> {path}\n"

/-- Compiles a source.  The standard input can be read only once. -/
def compile (j : Job) (src : String) : Session Unit := do
  let w ← get
  let b := Build.run w.files w.cwd w.stdin j.settings src
  set { w with
    stdin := if src = "-" then [] else w.stdin
    log := if j.debug then w.log ++ b.log true else w.log }
  match b.outcome with
  | .error f => throw (.build src b.source f)
  | .ok d =>
    match j.destination w.files b.name with
    | .error f => throw f
    | .ok path => store src d.encode path

/-- Compiles all sources, up to the first one that fails. -/
def compileAll (j : Job) : Session Unit := do
  let w ← get
  if 1 < j.sources.length && !j.out.isEmpty && !j.outIsDirectory w.files then
    throw .outputNotDirectory
  j.sources.forM j.compile

end Job

def watchPath (src : String) : Session String := do
  let w ← get
  if src = "-" || Input.hasCodeChar src.toList then throw (.notWatchable src)
  let path := Path.absoluteClean w.cwd src
  let path := if Path.endsWithSlash src then path ++ "/" else path
  if w.watchable.contains path then return path
  throw (.notWatched src path)

def distinct (names : List String) : List String :=
  names.foldl (fun seen name => if seen.contains name then seen else seen ++ [name]) []

/-- How a run ends that does not fail. -/
inductive Outcome where
  | done
  /-- The sources are to be compiled now and whenever one of the paths changes. -/
  | watching (job : Job) (paths : List String)

def loadSettings (path : String) : Session (Option Settings) := do
  if path.isEmpty then return none
  match (← get).files.read path with
  | .error f => throw (.settingsMissing f)
  | .ok content =>
    match Settings.parse content with
    | .error f => throw (.settingsFaulty path f)
    | .ok s => return some s

def perform (about : About) (o : Options) : Session Outcome := do
  if o.license then
    print about.copying
    return .done
  if o.sources.isEmpty then
    print about.help
    return .done
  if about.verbose then print about.greeting
  let job : Job := ⟨o.sources, o.out, ← loadSettings o.settings, o.debug⟩
  if o.watch then
    let watched := if o.settings.isEmpty then o.sources else o.sources ++ [o.settings]
    return .watching job (distinct (← watched.mapM watchPath))
  job.compileAll
  return .done

/-- Whether a program says all that it must of itself. -/
def check : Option About → Session About
  | none => throw .noProgram
  | some about => do
    if about.program.isEmpty || about.version.isEmpty then throw .misbuilt
    if about.copying.isEmpty then throw .noCopying
    return about

def run (about : Option About) (args : List String) : Session Outcome := do
  let about ← check about
  match Options.parse args with
  | .ok o => perform about o
  | .error .help =>
    print about.help
    return .done
  | .error .version =>
    print (about.version ++ "\n")
    return .done
  | .error (.fault f) => throw (.usage f)

end Diagram.CommandLine
