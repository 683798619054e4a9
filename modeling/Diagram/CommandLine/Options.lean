import Diagram.Text.Quoted

/-!
# Options of the command line

An argument that starts with a dash names an option, and its value follows an equals sign or
is the next argument.  All arguments after `--` are positional, and no positional argument is
accepted.
-/

namespace Diagram.CommandLine

inductive Flag where
  | src
  | out
  | metadata
  | debug
  | watch
  | prometheus
  | prometheusListen
  | license
deriving DecidableEq, Repr

namespace Flag

/-- All options, in the order of the help text. -/
def all : List Flag :=
  [src, out, metadata, debug, watch, prometheus, prometheusListen, license]

def name : Flag → String
  | src => "src"
  | out => "out"
  | metadata => "metadata"
  | debug => "debug"
  | watch => "watch"
  | prometheus => "prometheus"
  | prometheusListen => "prometheus-listen"
  | license => "license"

def help : Flag → String
  | src => "source file, project file or project directory to compile (repeatable, - for stdin)"
  | out => "output file, or directory when it ends with a slash or exists"
  | metadata => "project file with the document settings"
  | debug => "enable debug logging"
  | watch => "recompile whenever a source changes"
  | prometheus => "serve compile metrics"
  | prometheusListen => "specify prometheus instance binding"
  | license => "display the license and exit"

/-- How many values an option takes. -/
inductive Arity where
  | none
  /-- It takes one text. -/
  | one
  /-- It takes a text each time that it is given. -/
  | many
deriving DecidableEq, Repr

/-- How many values an option takes. -/
def arity : Flag → Arity
  | src => .many
  | out | metadata | prometheusListen => .one
  | debug | watch | prometheus | license => .none

def ofName? (s : String) : Option Flag :=
  all.find? (·.name == s)

end Flag

/-- What the options ask for. -/
structure Options where
  sources : List String
  out : String
  settings : String
  debug : Bool
  watch : Bool
  metrics : Bool
  listen : String
  license : Bool
deriving DecidableEq, Repr

namespace Options

def none : Options := ⟨[], "", "", false, false, false, "", false⟩

def setText (o : Options) (f : Flag) (s : String) : Options :=
  match f with
  | .src => { o with sources := o.sources ++ [s] }
  | .out => { o with out := s }
  | .metadata => { o with settings := s }
  | .prometheusListen => { o with listen := s }
  | _ => o

def setSwitch (o : Options) (f : Flag) (b : Bool) : Options :=
  match f with
  | .debug => { o with debug := b }
  | .watch => { o with watch := b }
  | .prometheus => { o with metrics := b }
  | .license => { o with license := b }
  | _ => o

/-- What is wrong with arguments. -/
inductive Fault where
  | unknown (arg : String)
  | missingValue (arg : String)
  | notSwitch (arg value : String)
  | positional (arg : String)
deriving DecidableEq, Repr

def Fault.message : Fault → String
  | unknown arg => s!"unknown argument {arg}"
  | missingValue arg => s!"missing value for {arg}"
  | notSwitch arg value =>
    s!"error processing {arg}: strconv.ParseBool: parsing {Text.Quoted.encode value}: invalid syntax"
  | positional arg => s!"too many positional arguments at '{arg}'"

/-- Why the arguments are not read to their end. -/
inductive Stop where
  | help
  | version
  | fault (f : Fault)
deriving DecidableEq, Repr

def withoutDashes (arg : String) : List Char :=
  arg.toList.dropWhile (· = '-')

def isFlag (arg : String) : Bool :=
  arg.toList.head? == some '-' && !(withoutDashes arg).isEmpty

/-- The name and the value in an argument; the value is empty if there is none. -/
def split (arg : String) : String × String :=
  let cs := withoutDashes arg
  let name := cs.takeWhile (· ≠ '=')
  (String.ofList name, String.ofList (cs.drop (name.length + 1)))

/-- The truth value that a text spells. -/
def switch? (s : String) : Option Bool :=
  if ["1", "t", "T", "true", "TRUE", "True"].contains s then some true
  else if ["0", "f", "F", "false", "FALSE", "False"].contains s then some false
  else Option.none

/-- Reads arguments after those that gave the options so far; the first positional argument is
kept until the end. -/
def readFrom (o : Options) (positional : Option String) : List String → Except Stop Options
  | [] =>
    match positional with
    | some arg => .error (.fault (.positional arg))
    | Option.none => .ok o
  | arg :: rest =>
    if arg = "--" then
      match positional <|> rest.head? with
      | some arg => .error (.fault (.positional arg))
      | Option.none => .ok o
    else if !isFlag arg then readFrom o (positional <|> some arg) rest
    else if arg = "-h" ∨ arg = "--help" then .error .help
    else if arg = "--version" then .error .version
    else
      let (name, value) := split arg
      match Flag.ofName? name with
      | Option.none => .error (.fault (.unknown arg))
      | some f =>
        match f.arity with
        | .none =>
          if value.isEmpty then readFrom (o.setSwitch f true) positional rest
          else
            match switch? value with
            | some b => readFrom (o.setSwitch f b) positional rest
            | Option.none => .error (.fault (.notSwitch arg value))
        | .many =>
          if value.isEmpty then
            match rest with
            | [] => readFrom o positional []
            | next :: after =>
              if isFlag next ∨ next = "--" then readFrom o positional (next :: after)
              else readFrom (o.setText f next) positional after
          else readFrom (o.setText f value) positional rest
        | .one =>
          if value.isEmpty then
            match rest with
            | [] => .error (.fault (.missingValue arg))
            | next :: after =>
              if isFlag next then .error (.fault (.missingValue arg))
              else readFrom (o.setText f next) positional after
          else readFrom (o.setText f value) positional rest

/-- Whether help is asked for before the positional arguments. -/
def asksForHelp (args : List String) : Bool :=
  (args.takeWhile (· ≠ "--")).any fun arg => arg = "-h" || arg = "--help"

/-- Reads the arguments of the command line.  A request for help counts more than all else that
ends the reading. -/
def parse (args : List String) : Except Stop Options :=
  match readFrom none Option.none args with
  | .ok o => .ok o
  | .error stop => .error (if asksForHelp args then .help else stop)

end Options

end Diagram.CommandLine
