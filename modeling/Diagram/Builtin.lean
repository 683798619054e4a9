import Diagram.Value

/-!
# Built-in commands

The commands of the target calculator that a program may call.  Most are only evaluated
there; the constructors of colors and shapes are also computed when all arguments are
constants.
-/

namespace Diagram

/-- The commands whose calls with constant arguments are constants. -/
inductive Builtin.Fold where
  | color (model : ColorModel)
  | polygon
  | segment
deriving DecidableEq, Repr

/-- A command of the target calculator. -/
structure Builtin where
  name : String
  /-- The number of arguments; without one, any number will do. -/
  arity : Option Nat
  /-- The type of a call. -/
  result : Ty
  /-- How calls with constant arguments are computed. -/
  fold : Option Builtin.Fold
deriving DecidableEq, Repr

namespace Builtin

/-- The names of the commands that are only evaluated by the target. -/
def commandNames : List String :=
  ["sin", "cos", "tan", "csc", "sec", "cot",
   "arcsin", "arccos", "arctan", "arccsc", "arcsec", "arccot",
   "sinh", "cosh", "tanh", "csch", "sech", "coth",
   "mean", "median", "min", "max", "quartile", "quantile", "stdev",
   "stdevp", "var", "mad", "cov", "covp", "corr", "spearman", "stats",
   "count", "total",
   "join", "sort", "shuffle", "unique",
   "histogram", "dotplot", "boxplot",
   "normaldist", "tdist", "poissondist", "binomialdist", "uniformdist",
   "pdf", "cdf", "inversecdf", "random", "ttest", "tscore", "ittest",
   "exp", "ln", "log", "log_base", "derivative", "integral", "sum",
   "product",
   "midpoint", "intersection", "line", "ray", "vector", "parallel",
   "perpendicular", "circle", "arc", "angle", "directedangle", "glider",
   "distance", "length", "area", "perimeter", "vertices", "angles",
   "directedangles", "segments", "radius", "center", "coterminal",
   "supplement", "start", "end",
   "dilate", "rotate", "reflect", "translate",
   "tone",
   "lcm", "gcd", "mod", "ceil", "floor", "round", "sign", "sqrt", "cbrt",
   "nthroot", "nPr", "nCr"]

def constructors : List Builtin :=
  [⟨"rgb", some 3, .color, some (.color .rgb)⟩,
   ⟨"hsv", some 3, .color, some (.color .hsv)⟩,
   ⟨"polygon", none, .polygon, some .polygon⟩,
   ⟨"segment", some 2, .segment, some .segment⟩]

def all : List Builtin :=
  commandNames.map (⟨·, none, .unknown, none⟩) ++ constructors

/-- The names of all commands, in order. -/
def names : List String :=
  (all.map Builtin.name).mergeSort (· ≤ ·)

def find? (name : String) : Option Builtin :=
  all.find? (·.name == name)

/-- Why a call is wrong. -/
inductive CallError where
  | arity (name : String) (expected got : Nat)
  | notANumber (channel : Nat) (v : Value)
  | vertexNotAPoint (vertex : Nat) (v : Value)
  | notAPoint (v : Value)

def CallError.message : CallError → String
  | arity name expected got => s!"builtin '{name}' expects {expected} arguments, got {got}"
  | notANumber channel v => s!"channel {channel} is not a number: {v.text}"
  | vertexNotAPoint vertex v => s!"vertex {vertex}: not a point: {v.text}"
  | notAPoint v => s!"not a point: {v.text}"

def checkArity (b : Builtin) (count : Nat) : Except CallError Unit :=
  match b.arity with
  | none => .ok ()
  | some n => if n = count then .ok () else .error (.arity b.name n count)

/-- The channels of a color, counted from `i`. -/
def channels (i : Nat) : List Value → Except CallError (List Float)
  | [] => .ok []
  | v :: vs =>
    match v.number? with
    | none => .error (.notANumber i v)
    | some x => (channels (i + 1) vs).map (x :: ·)

/-- The vertices of a polygon, counted from `i`. -/
def vertices (i : Nat) : List Value → Except CallError (List Vertex)
  | [] => .ok []
  | v :: vs =>
    match v.vertex? with
    | none => .error (.vertexNotAPoint i v)
    | some p => (vertices (i + 1) vs).map (p :: ·)

/-- Computes a call with constant arguments.  The number of arguments has been checked: a color
takes its first three channels, a segment its first two ends. -/
def Fold.run (f : Fold) (args : List Value) : Except CallError (Option Value) :=
  match f with
  | .color model =>
    (channels 1 args).map fun
      | a :: b :: c :: _ => some (.color model a b c)
      | _ => none
  | .polygon => (vertices 1 args).map fun vs => some (.polygon vs)
  | .segment =>
    match args with
    | a :: b :: _ =>
      match a.vertex?, b.vertex? with
      | none, _ => .error (.notAPoint a)
      | some _, none => .error (.notAPoint b)
      | some p, some q => .ok (some (.segment p q))
    | _ => .ok none

end Builtin

end Diagram
