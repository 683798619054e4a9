import Diagram.CommandLine

/-!
# The program

The program loads the files that its arguments are about, runs the command line on them, and
then writes the files and the texts that this gave.  While it watches, it looks at the files
again and again.
-/

namespace Diagram.CommandLine

def theProgram : About where
  program := "figura"
  version := "0.0.0-dev"
  copying := "figura is free software: you can redistribute it and/or modify\n" ++
    "it under the terms of the GNU General Public License as published by\n" ++
    "the Free Software Foundation, either version 3 of the License, or\n" ++
    "(at your option) any later version. See <https://www.gnu.org/licenses/>.\n"
  tagline := "compile interactive diagrams into geometry calculator documents"
  verbose := false

def loadPath (known : FileSystem) (path : String) : IO FileSystem := do
  let place := (← IO.currentDir) / path
  if ← place.isDir then return known.makeDirectory path
  else if ← place.pathExists then return known.write path (← IO.FS.readBinFile place).toList
  else return known

/-- Loads the files that options are about.  Settings are loaded first, since they name further
files. -/
def loadFiles (cwd : String) (o : Options) : IO FileSystem := do
  let mut known := FileSystem.empty
  for _ in [0, 1] do
    known ← (o.sources.flatMap (Input.places known cwd)).foldlM loadPath known
  if !o.settings.isEmpty then known ← loadPath known o.settings
  if !o.out.isEmpty && (← ((← IO.currentDir) / o.out).isDir) then
    known := known.makeDirectory o.out
  return known

partial def readAll (input : IO.FS.Stream) (acc : ByteArray) : IO ByteArray := do
  let bytes ← input.read 65536
  if bytes.isEmpty then return acc else readAll input (acc ++ bytes)

def existing (cwd : String) (o : Options) : IO (List String) :=
  (o.sources ++ [o.settings]).filterMapM fun src => do
    let path := Path.absoluteClean cwd src
    if ← ((← IO.currentDir) / path).pathExists then
      return some (if Path.endsWithSlash src then path ++ "/" else path)
    else return none

def loadWorld (o : Options) : IO World := do
  let cwd := (← IO.currentDir).toString
  let stdin ← if o.sources.contains "-" then readAll (← IO.getStdin) .empty else pure .empty
  return ⟨cwd, ← loadFiles cwd o, false, stdin.toList, "", [], ← existing cwd o⟩

/-- Writes the files that are new or changed, and the texts. -/
def storeWorld (before after : World) : IO Unit := do
  for (path, node) in after.files.nodes.entries do
    if !node.isDirectory && before.files.node? path != some node then
      let place := (← IO.currentDir) / path
      if let some directory := place.parent then IO.FS.createDirAll directory
      IO.FS.writeBinFile place ⟨node.content.toArray⟩
  after.log.forM fun line => IO.eprintln s!"main: lang: {line}"
  IO.print after.stdout
  (← IO.getStdout).flush

/-- Compiles the sources of a job, and again whenever the files have changed. -/
partial def watchFiles (o : Options) (job : Job) (seen : Option World) : IO Unit := do
  let world ← loadWorld o
  let isNew := match seen with
    | some last => last.files.nodes.entries != world.files.nodes.entries
    | none => true
  if isNew then
    match job.compileAll world with
    | .ok _ after => storeWorld world after
    | .error f after =>
      storeWorld world after
      IO.eprintln s!"main: compile failed: {f.problem.text}"
  IO.sleep 250
  watchFiles o job (some world)

/-- Runs the program, and gives its exit code. -/
def start (args : List String) : IO UInt32 := do
  let o := (Options.parse args).toOption.getD .none
  let world ← loadWorld o
  match run (some theProgram) args world with
  | .ok .done after =>
    storeWorld world after
    return 0
  | .ok (.watching job _) after =>
    storeWorld world after
    watchFiles o job none
    return 0
  | .error f after =>
    storeWorld world after
    IO.eprintln f.problem.text
    return 1

end Diagram.CommandLine

def main (args : List String) : IO UInt32 :=
  Diagram.CommandLine.start args
