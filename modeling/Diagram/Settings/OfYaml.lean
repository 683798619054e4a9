import Diagram.Settings
import Diagram.Text.Blank
import Diagram.Value.Arithmetic
import Diagram.Yaml.Meaning
import Diagram.Yaml.Parser

/-!
# Settings from their file

A settings file is a YAML mapping from the names of settings to their values.  A setting that
is not named keeps its default; a name that is no setting is ignored; of two values of one
setting the later one counts.
-/

namespace Diagram

namespace Yaml

/-- A tree as a text: nothing for a collection, and empty for null. -/
def asText? : Yaml → Option String
  | scalar s plain tag => do
    match ← Meaning.ofScalar? s plain tag with
    | .null => return ""
    | _ => return s
  | _ => none

/-- A tree as a truth value; null is false. -/
def asBool? : Yaml → Option Bool
  | scalar s plain tag => do
    match ← Meaning.ofScalar? s plain tag with
    | .null => return false
    | .bool b => return b
    | _ => none
  | _ => none

/-- A tree as an integer; reals lose their fraction, and null is zero. -/
def asInteger? : Yaml → Option Int64
  | scalar s plain tag => do
    match ← Meaning.ofScalar? s plain tag with
    | .null => return 0
    | .integer n => Decimal.integer? n
    | .real x => if x ≤ 9223372036854775808.0 then some (Value.integerOfFloat x) else none
    | _ => none
  | _ => none

def isNull : Yaml → Bool
  | scalar s plain tag =>
    match Meaning.ofScalar? s plain tag with
    | some .null => true
    | _ => false
  | _ => false

/-- Whether a key stands for the entries of the mappings that are its value. -/
def isMerge : Yaml → Bool
  | scalar s plain tag => s == "<<" && ((plain && tag.isEmpty) || tag == "!!merge" || tag == "!")
  | _ => false

section Records

variable {α : Type} (assign : String → Yaml → α → Option α)

mutual

/-- Assigns the entries of a mapping to a record, one after the other. -/
def assignTo (record : α) : Yaml → Option α
  | mapping entries => assignEntries record entries
  | _ => none

def assignEntries (record : α) : List (Yaml × Yaml) → Option α
  | [] => some record
  | (key, value) :: rest => do
    let record ← if key.isMerge then mergeInto record value else do
      assign (← key.asText?) value record
    assignEntries record rest

/-- Assigns the entries of a mapping, or of several mappings of which the first one counts most. -/
def mergeInto (record : α) : Yaml → Option α
  | mapping entries => assignEntries record entries
  | list items => mergeAll record items
  | _ => none

/-- Assigns the entries of mappings, the last mapping first. -/
def mergeAll (record : α) : List Yaml → Option α
  | [] => some record
  | mapping entries :: rest => do assignEntries (← mergeAll record rest) entries
  | _ :: _ => none

end

end Records

end Yaml

namespace FolderTitles

def assign (name : String) (y : Yaml) (titles : FolderTitles) : Option FolderTitles :=
  match name with
  | "geometry" => do return { titles with geometry := ← y.asText? }
  | "actions" => do return { titles with actions := ← y.asText? }
  | "definitions" => do return { titles with definitions := ← y.asText? }
  | "display" => do return { titles with display := ← y.asText? }
  | _ => some titles

def blank : FolderTitles := ⟨"", "", "", ""⟩

end FolderTitles

namespace Settings

/-- What can be wrong with settings. -/
inductive Fault where
  | malformed
  | mainEmpty
  | mainAbsolute
  | versionNotPositive
  | productEmpty
deriving DecidableEq, Repr

def Fault.message : Fault → String
  | malformed => "can't parse metadata: yaml: unexpected content"
  | mainEmpty => "the main field must not be empty"
  | mainAbsolute => "the main field must be a relative path"
  | versionNotPositive => "the version field must be positive"
  | productEmpty => "the product field must not be empty"

def assign (name : String) (y : Yaml) (s : Settings) : Option Settings :=
  match name with
  | "main" => do return { s with main := ← y.asText? }
  | "version" => do return { s with version := ← y.asInteger? }
  | "product" => do return { s with product := ← y.asText? }
  | "playing" => do return { s with playing := ← y.asBool? }
  | "folders" =>
    if y.isNull then some { s with folders := .blank }
    else do return { s with folders := ← y.assignTo FolderTitles.assign s.folders }
  | _ => some s

/-- The settings of a tree, unchecked; null stands for the defaults. -/
def ofYaml? (y : Yaml) : Option Settings :=
  if y.isNull then some .default else y.assignTo assign .default

def fault? (s : Settings) : Option Fault :=
  if s.main = "" then some .mainEmpty
  else if s.main.startsWith "/" then some .mainAbsolute
  else if s.version ≤ 0 then some .versionNotPositive
  else if Text.trimBlank s.product = "" then some .productEmpty
  else none

def isText (glyphs : List Text.Glyph) : Bool :=
  glyphs.all fun g => g.char ≠ Text.Glyph.replacement || g.bytes.length ≠ 1

def parse (bytes : List UInt8) : Except Fault Settings := do
  let glyphs := Text.Glyph.decode bytes
  if !isText glyphs then throw .malformed
  match (Yaml.parse? (glyphs.map (·.char))).bind ofYaml? with
  | none => throw .malformed
  | some s =>
    match s.fault? with
    | some f => throw f
    | none => return s

end Settings

end Diagram
