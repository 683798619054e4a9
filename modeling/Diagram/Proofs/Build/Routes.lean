import Diagram.Build
import Diagram.Proofs.Text.Encoded

/-!
# Code as an input

The text of a program can be given as the input itself or on the standard input.  Both ways give
the same document or the same failure, unless the text ends like the path of a settings file, of a
source or of a directory.  Such a text is taken for the path, and there is nothing to compile.

Main statement: `Build.outcome_run_eq_iff`.
-/

namespace Diagram

open FileSystem Path Input

namespace Input

/-- The endings by which an input names a settings file, a source or a directory. -/
def placeEndings : List String := ["/" ++ settingsName, extension, "/"]

/-- A text that ends like the path of something to read. -/
def NamesPlace (s : String) : Prop :=
  ∃ ending ∈ placeEndings, ending.toList <:+ s.toList

instance (s : String) : Decidable (NamesPlace s) :=
  inferInstanceAs (Decidable (∃ ending ∈ placeEndings, ending.toList <:+ s.toList))

variable {s : String}

theorem endsWithSlash_iff : endsWithSlash s ↔ "/".toList <:+ s.toList := by
  rw [endsWithSlash, beq_iff_eq, List.getLast?_eq_some_iff]
  constructor
  · rintro ⟨before, h⟩
    exact ⟨before, h.symm⟩
  · rintro ⟨before, h⟩
    exact ⟨before, h.symm⟩

theorem namesPlace_iff : NamesPlace s ↔
    endsWith s ("/" ++ settingsName) ∨ endsWith s extension ∨
      endsWithSlash s := by
  simp only [NamesPlace, placeEndings, endsWith, List.isSuffixOf_iff_suffix, endsWithSlash_iff,
    List.mem_cons, List.not_mem_nil, or_false, exists_eq_or_imp, exists_eq_left]

/-- A text with a character of code is read as code exactly if it does not end like a path. -/
theorem formOf_eq_code_iff (h : hasCodeChar s.toList) : formOf s = .code ↔ ¬NamesPlace s := by
  have hdash : s ≠ "-" := by
    rintro rfl
    exact absurd h (by decide)
  have hname : s ≠ settingsName := by
    rintro rfl
    exact absurd h (by decide)
  rw [namesPlace_iff]
  unfold formOf
  rw [if_neg hdash]
  by_cases hsettings : endsWith s ("/" ++ settingsName) = true
  · simp [hsettings]
  by_cases hsource : endsWith s extension = true
  · simp [hname, hsettings, hsource]
  by_cases hslash : endsWithSlash s = true <;> simp [hname, hsettings, hsource, hslash]

theorem isEmpty_of_hasCodeChar (h : hasCodeChar s.toList) : s.isEmpty = false := by
  cases hs : s.isEmpty with
  | false => rfl
  | true =>
    rw [String.isEmpty_iff] at hs
    subst hs
    exact absurd h (by decide)

theorem ofCode_of_hasCodeChar (h : hasCodeChar s.toList) (name : String) :
    ofCode name s.toUTF8.toList = .ok ⟨name, s.toUTF8.toList, .default⟩ := by
  have hcontent : s.toUTF8.toList.isEmpty = false := by
    cases hbytes : s.toUTF8.toList with
    | cons b bytes => rfl
    | nil =>
      have hchars := Text.Glyph.chars_decode_toUTF8 s
      rw [hbytes] at hchars
      rw [← hchars] at h
      exact absurd h (by decide)
  have hpath : isMistypedPath s.toList = false := by simp [isMistypedPath, h]
  simp only [ofCode, hcontent, Text.Glyph.chars_decode_toUTF8, hpath, Bool.false_eq_true, if_false]

section Read

variable (fs : FileSystem) (cwd : String) (stdin : List UInt8)

theorem read_eq_ok_of_code (h : hasCodeChar s.toList) (hform : formOf s = .code) :
    read fs cwd stdin s = .ok ⟨"<code>", s.toUTF8.toList, .default⟩ := by
  rw [read, isEmpty_of_hasCodeChar h, hform]
  exact ofCode_of_hasCodeChar h "<code>"

theorem read_standardInput (h : hasCodeChar s.toList) :
    read fs cwd s.toUTF8.toList "-" = .ok ⟨"<stdin>", s.toUTF8.toList, .default⟩ :=
  ofCode_of_hasCodeChar h "<stdin>"

variable {fs cwd}

theorem exists_read_eq_error (h : hasCodeChar s.toList)
    (hfree : fs.contains (absolute cwd s) = false) (hform : formOf s ≠ .code) :
    ∃ f, read fs cwd stdin s = .error f := by
  have hnone : fs.node? (absolute cwd s) = none := Option.not_isSome_iff_eq_none.1 (by
    rw [← contains, hfree]
    exact Bool.false_ne_true)
  have hfind : fs.find (absolute cwd s) = .error (.missing (canonical (absolute cwd s))) := by
    rw [find, hnone]
  have hread : fs.read (absolute cwd s) = .error (.missing (canonical (absolute cwd s))) := by
    rw [FileSystem.read, hfind]
    rfl
  rw [read, isEmpty_of_hasCodeChar h]
  cases hcase : formOf s with
  | code => exact absurd hcase hform
  | standardInput =>
    have hdash : s = "-" := by
      unfold formOf at hcase
      split at hcase
      · assumption
      · repeat' split at hcase
        all_goals cases hcase
    subst hdash
    exact absurd h (by decide)
  | settingsFile =>
    simp only [ofSettingsFile, loadSettings, hread]
    exact ⟨_, rfl⟩
  | source =>
    simp only [ofSource, loadSource, hread]
    exact ⟨_, rfl⟩
  | directory =>
    simp only [ofDirectory, hfind]
    exact ⟨_, rfl⟩

end Read

end Input

namespace Build

variable {fs : FileSystem} {cwd s : String}

theorem snd_compile_ne_input (settings : Settings) (content : List UInt8) (f : Input.Failure) :
    (compile settings content).2 ≠ .error (.input f) := by
  unfold compile
  split
  · simp
  split
  · simp
  dsimp only
  split
  · simp
  · cases Document.ofProgram settings _ <;> simp [Except.mapError]

theorem outcome_run_of_read {stdin : List UInt8} {input : Input}
    (h : read fs cwd stdin s = .ok input) (settings : Option Settings) :
    (run fs cwd stdin settings s).outcome =
      (compile (settings.getD input.settings) input.content).2 := by
  simp only [run, h]

/-- A text that has a character of code and names nothing that exists compiles to the same
document, or fails for the same reason, whether it is the input itself or the standard input, but
for the texts that end like a path. -/
theorem outcome_run_eq_iff (stdin : List UInt8) (settings : Option Settings)
    (hcode : Input.hasCodeChar s.toList = true)
    (hfree : fs.contains (Path.absolute cwd s) = false) :
    ((run fs cwd stdin settings s).outcome = (run fs cwd s.toUTF8.toList settings "-").outcome ↔
        ¬Input.NamesPlace s) ∧
      (Input.NamesPlace s → ∃ f, (run fs cwd stdin settings s).outcome = .error (.input f)) := by
  have hstandard := outcome_run_of_read (read_standardInput fs cwd hcode) settings
  have hplace : Input.NamesPlace s →
      ∃ f, (run fs cwd stdin settings s).outcome = .error (.input f) := by
    intro hnames
    have hform : formOf s ≠ .code := fun h => (formOf_eq_code_iff hcode).1 h hnames
    obtain ⟨f, hf⟩ := exists_read_eq_error stdin hcode hfree hform
    exact ⟨f, by simp only [run, hf]⟩
  refine ⟨⟨fun heq hnames => ?_, fun hnames => ?_⟩, hplace⟩
  · obtain ⟨f, hf⟩ := hplace hnames
    rw [hstandard, hf] at heq
    exact snd_compile_ne_input _ _ f heq.symm
  · have hform := (formOf_eq_code_iff hcode).2 hnames
    rw [hstandard, outcome_run_of_read (read_eq_ok_of_code fs cwd stdin hcode hform) settings]

/-- A program without a path-like ending, in an empty file system. -/
theorem outcome_run_eq_iff_program :
    let s := "let a = 1;"
    hasCodeChar s.toList = true ∧ empty.contains (absolute "/" s) = false ∧
      ¬Input.NamesPlace s ∧
      (run .empty "/" [] none s).outcome = (run .empty "/" s.toUTF8.toList none "-").outcome := by
  intro s
  have hcode : hasCodeChar s.toList = true := by decide
  have hfree : empty.contains (absolute "/" s) = false := by decide +kernel
  have hnames : ¬Input.NamesPlace s := by decide +kernel
  exact ⟨hcode, hfree, hnames, (outcome_run_eq_iff [] none hcode hfree).1.2 hnames⟩

/-- A program that ends with a comment that ends with a slash is taken for a directory. -/
theorem outcome_run_ne_of_slash :
    let s := "let a = 1; // x/"
    hasCodeChar s.toList = true ∧ empty.contains (absolute "/" s) = false ∧
      (run .empty "/" [] none s).outcome = .error (.input
        (.directoryMissing "/let a = 1; / x/" (.missing "/let a = 1; / x"))) ∧
      ∃ d, (run .empty "/" s.toUTF8.toList none "-").outcome = .ok d := by
  intro s
  have hcode : hasCodeChar s.toList = true := by decide
  have hform : formOf s = .directory := by decide +kernel
  have hpath : absolute "/" s = "/let a = 1; / x/" := by decide +kernel
  have hnode : empty.node? "/let a = 1; / x/" = none := by decide +kernel
  have hplace : canonical "/let a = 1; / x/" = "/let a = 1; / x" := by decide +kernel
  have hread : read .empty "/" [] s =
      .error (.directoryMissing "/let a = 1; / x/" (.missing "/let a = 1; / x")) := by
    rw [Input.read, Input.isEmpty_of_hasCodeChar hcode, hform]
    simp only [hpath, ofDirectory, find, hnode, hplace]
    rfl
  have hcompiled : ((run .empty "/" s.toUTF8.toList none "-").outcome.toOption).isSome = true := by
    decide +kernel
  refine ⟨hcode, by rw [contains, hpath, hnode]; rfl, by simp only [run, hread], ?_⟩
  cases hrun : (run .empty "/" s.toUTF8.toList none "-").outcome with
  | ok d => exact ⟨d, rfl⟩
  | error f =>
    rw [hrun] at hcompiled
    cases hcompiled

end Build

end Diagram
