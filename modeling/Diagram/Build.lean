import Diagram.Document.OfProgram
import Diagram.Input
import Diagram.Problem
import Diagram.Program.Parser
import Diagram.Token.Lexer
import Diagram.Typing.Program

/-!
# Builds

A build takes an input through all stages: it is read, cut into tokens, parsed, analyzed and
compiled to a document.  It keeps what it read and a record of the stages that it came to.
-/

namespace Diagram

namespace Build

/-- What happened in the course of a build. -/
inductive Event where
  | started (input : String)
  | surroundings (tree : String)
  | parsing (name : String)
  | analyzing
  | noted (note : Typing.Note)
  | analyzed (identifiers : NameMap Expr)
  | compiling

/-- Whether an event is only told to those who look for errors. -/
def Event.isDetail : Event → Bool
  | started _ | surroundings _ | noted _ | analyzed _ => true
  | parsing _ | analyzing | compiling => false

def Event.text : Event → String
  | started input => s!"input: {input}"
  | surroundings tree => s!"input tree:\n{tree}"
  | parsing name => s!"lexing/parsing {name}..."
  | analyzing => "analyzing..."
  | noted note => s!"semantics: {note.text}"
  | analyzed identifiers =>
    let lines := identifiers.entries.map fun (name, e) => s!"{name} = {e.text}\n"
    "behold, the definitions:\n" ++ String.join lines
  | compiling => "compiling..."

/-- Why a build fails. -/
inductive Failure where
  | input (f : Input.Failure)
  | tokens (e : Located Token.Cause)
  | program (e : Located Parser.Cause)
  | typing (f : Typing.Failure)
  | document (d : Document.Defect)

/-- A failure as a problem in the context of the stage that it arose in. -/
def Failure.problem : Failure → Problem
  | input f => .within "could not activate an input parser" (.plain f.message)
  | tokens e => .within "could not generate AST" (.located ⟨e.cause.message, e.area⟩)
  | program e => .within "could not generate AST" (.located ⟨e.cause.message, e.area⟩)
  | typing (.rejected e) => .within "could not analyze" (.located ⟨e.cause.message, e.area⟩)
  | typing (.defective d) => .within "could not analyze" (.plain d.message)
  | document d => .within "could not compile" (.plain d.message)

end Build

/-- A build that has come to its end. -/
structure Build where
  /-- What was read, if there was something. -/
  input : Option Input
  events : List Build.Event
  outcome : Except Build.Failure Document

namespace Build

/-- The path of the source, empty if nothing was read. -/
def name (b : Build) : String :=
  (b.input.map (·.name)).getD ""

/-- The characters of the source, none if nothing was read. -/
def source (b : Build) : List Char :=
  match b.input with
  | some input => (Text.Glyph.decode input.content).map (·.char)
  | none => []

/-- The texts of the events, with or without the details. -/
def log (b : Build) (details : Bool) : List String :=
  (b.events.filter fun e => details || !e.isDetail).map Event.text

def compile (settings : Settings) (content : List UInt8) : List Event × Except Failure Document :=
  match Token.scan (Text.Glyph.decode content) with
  | .error e => ([], .error (.tokens e))
  | .ok tokens =>
    match Program.parse tokens with
    | .error e => ([], .error (.program e))
    | .ok p =>
      let report := p.analyze
      let notes := (report.notes.filter fun n => !n.isDetail).map Event.noted
      match report.outcome with
      | .error e => (.analyzing :: notes, .error (.typing e))
      | .ok q =>
        (.analyzing :: notes ++ [.analyzed q.identifiers, .compiling],
          (Document.ofProgram settings q).mapError .document)

def firstEvents (fs : FileSystem) (s : String) : List Event :=
  match fs.tree (Path.directory s) with
  | .ok tree => [.started s, .surroundings tree]
  | .error _ => [.started s]

/-- Builds an input; the settings that are given, if any, replace those of the input. -/
def run (fs : FileSystem) (cwd : String) (stdin : List UInt8) (settings : Option Settings)
    (s : String) : Build :=
  match Input.read fs cwd stdin s with
  | .error f => ⟨none, firstEvents fs s, .error (.input f)⟩
  | .ok input =>
    let (events, outcome) := compile (settings.getD input.settings) input.content
    ⟨some input, firstEvents fs s ++ .parsing input.name :: events, outcome⟩

end Build

end Diagram
