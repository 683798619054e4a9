import Diagram.Source.Highlight

/-!
# Problems

A problem is what went wrong, told to a user: a text, a message with its place in a source, a
problem with the context in which it arose, or several problems at once.
-/

namespace Diagram

/-- What went wrong. -/
inductive Problem where
  | plain (text : String)
  | located (d : Diagnostic)
  /-- A problem that arose while something else was done. -/
  | within (context : String) (problem : Problem)
  | several (problems : List Problem)

namespace Problem

mutual

def text : Problem → String
  | plain s => s
  | located d => d.text
  | within context p => s!"{context}: {p.text}"
  | several ps =>
    let header := if ps.length = 1 then "1 error occurred:" else s!"{ps.length} errors occurred:"
    header ++ bullets ps ++ "\n\n"

def bullets : List Problem → String
  | [] => ""
  | p :: ps => "\n\t* " ++ p.text ++ bullets ps

end

def cause : Problem → Problem
  | within _ p => p.cause
  | p => p

def parts : Problem → List Problem
  | several ps => ps
  | p => [p]

def append (p q : Problem) : Problem :=
  several (p.parts ++ q.parts)

mutual

def diagnostic? : Problem → Option Diagnostic
  | plain _ => none
  | located d => some d
  | within _ p => p.diagnostic?
  | several ps => firstDiagnostic? ps

def firstDiagnostic? : List Problem → Option Diagnostic
  | [] => none
  | p :: ps => p.diagnostic? <|> firstDiagnostic? ps

end

end Problem

end Diagram
