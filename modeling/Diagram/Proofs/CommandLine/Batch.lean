import Diagram.CommandLine
import Diagram.Proofs.Document.Decoded
import Diagram.Proofs.FileSystem
import Diagram.Proofs.Text.Encoded

/-!
# Batches

A source is built and gets a destination before anything is written, so a source that fails
leaves the files and the standard output as the sources before it made them.

A document that is written stays as long as no other one goes to its place.  In an output directory
it is named after the last piece of the path of its source alone, so the documents of sources in
different directories can go to one place.

Main statements: `compileAll_of_failure`, `keptIn_iff_of_compileAll`.
-/

namespace Diagram.CommandLine.Job

open FileSystem

/-- What is made of a source: the name it is known by, its document, and where that goes. -/
structure Delivery where
  name : String
  path : Option String
  document : Document

/-- What is made of a source, or why it cannot be built or gets no destination. -/
def delivery (j : Job) (w : World) (src : String) : Except Failure Delivery :=
  let b := Build.run w.files w.cwd w.stdin j.settings src
  match b.outcome with
  | .error f => .error (.build src b.source f)
  | .ok d => (j.destination w.files b.name).map fun path => ⟨b.name, path, d⟩

/-- The world once a source is built, before its document is written. -/
def built (j : Job) (w : World) (src : String) : World :=
  { w with
    stdin := if src = "-" then [] else w.stdin
    log := if j.debug then w.log ++ (Build.run w.files w.cwd w.stdin j.settings src).log true
      else w.log }

/-- Writes what was made of a source. -/
def finish (src : String) : Except Failure Delivery → Session Unit
  | .error f => throw f
  | .ok d => store src d.document.encode d.path

/-- Whether several sources meet an output that is not a directory. -/
def refusesBatch (j : Job) (w : World) : Bool :=
  1 < j.sources.length && !j.out.isEmpty && !j.outIsDirectory w.files

def worldOf (files : List (String × String)) : World where
  cwd := "/"
  files := files.foldl (fun fs file => fs.write file.1 file.2.toUTF8.toList) .empty
  isReadOnly := false
  stdin := []
  stdout := ""
  log := []
  watchable := []

/-- The world that a session ends in, unless it fails. -/
def last? (x : Session Unit) (w : World) : Option World :=
  match x w with
  | .ok _ w' => some w'
  | .error .. => none

variable {w' : World} {before : List String} {f : Failure} {d a b : Delivery}

theorem last?_eq_some_iff {x : Session Unit} {w : World} :
    last? x w = some w' ↔ x w = .ok () w' := by
  unfold last?
  split <;> simp_all

/-- What is made of some sources, one after the other, each in the world that the ones before it
leave behind. -/
inductive Delivers (j : Job) : World → List String → List Delivery → World → Prop
  | nil {w} : Delivers j w [] [] w
  | cons {w w₁ w₂ src rest d ds} (hdelivery : j.delivery w src = .ok d)
      (hstore : store src d.document.encode d.path (j.built w src) = .ok () w₁)
      (hrest : Delivers j w₁ rest ds w₂) : Delivers j w (src :: rest) (d :: ds) w₂

variable {j : Job} {w w₁ : World} {src : String}

/-- A source is built, and gets a destination, before anything is written. -/
theorem compile_eq (j : Job) (w : World) (src : String) :
    j.compile src w = finish src (j.delivery w src) (j.built w src) := by
  unfold delivery built
  dsimp only [compile, bind, EStateM.bind, get, getThe, MonadStateOf.get, EStateM.get, set,
    EStateM.set]
  cases (Build.run w.files w.cwd w.stdin j.settings src).outcome with
  | error f => rfl
  | ok d => cases j.destination w.files (Build.run w.files w.cwd w.stdin j.settings src).name <;> rfl

theorem compileAll_eq (j : Job) (w : World) :
    j.compileAll w =
      if j.refusesBatch w then .error .outputNotDirectory w else j.sources.forM j.compile w := by
  unfold compileAll refusesBatch
  dsimp only [bind, EStateM.bind, get, getThe, MonadStateOf.get, EStateM.get]
  split <;> rfl

variable (after : List String)

theorem forM_append_of_ok (h : before.forM j.compile w = .ok () w₁) :
    (before ++ after).forM j.compile w = after.forM j.compile w₁ := by
  refine (congrFun List.forM_append w).trans ?_
  change EStateM.bind (before.forM j.compile) _ w = _
  simp only [EStateM.bind, h]
  rfl

theorem forM_append_of_error (h : before.forM j.compile w = .error f w₁) :
    (before ++ after).forM j.compile w = .error f w₁ := by
  refine (congrFun List.forM_append w).trans ?_
  change EStateM.bind (before.forM j.compile) _ w = _
  simp only [EStateM.bind, h]

theorem forM_cons_of_error (h : j.delivery w src = .error f) :
    (src :: after).forM j.compile w = .error f (j.built w src) := by
  change EStateM.bind (j.compile src) _ w = _
  simp only [EStateM.bind, compile_eq, h]
  rfl

theorem refusesBatch_of_append {after : List String} (h : j.sources = before ++ after)
    (hj : j.refusesBatch w = false) : refusesBatch { j with sources := before } w = false := by
  unfold refusesBatch at hj ⊢
  rw [h, List.length_append] at hj
  simp only [Bool.and_eq_false_iff, decide_eq_false_iff_not] at hj ⊢
  rcases hj with (hcount | hout) | hdirectory
  · exact .inl (.inl (by omega))
  · exact .inl (.inr hout)
  · exact .inr hdirectory

/-- Several sources that meet an output that is not a directory change nothing.  Otherwise, if the
sources before another one do not fail, and that one cannot be built or gets no destination, the
batch fails with its failure, and the files and the standard output are those after the sources
before it.  If one of the sources before it fails, the batch ends as theirs. -/
theorem compileAll_of_failure (j : Job) (w : World) :
    (j.refusesBatch w = true → j.compileAll w = .error .outputNotDirectory w) ∧
    (j.refusesBatch w = false → ∀ before src after, j.sources = before ++ src :: after →
      (∀ f w₁, compileAll { j with sources := before } w = .error f w₁ →
        j.compileAll w = .error f w₁) ∧
      ∀ w₁, compileAll { j with sources := before } w = .ok () w₁ →
        ∀ f, j.delivery w₁ src = .error f →
          ∃ w₂, j.compileAll w = .error f w₂ ∧ w₂.files = w₁.files ∧ w₂.stdout = w₁.stdout) := by
  refine ⟨fun h => by rw [compileAll_eq, if_pos h], fun h before src after hsources => ?_⟩
  have hbefore : compileAll { j with sources := before } w = before.forM j.compile w := by
    rw [compileAll_eq, refusesBatch_of_append hsources h]
    rfl
  have hall : j.compileAll w = (before ++ src :: after).forM j.compile w := by
    rw [compileAll_eq, h, hsources]
    rfl
  rw [hbefore, hall]
  refine ⟨fun f w₁ => forM_append_of_error _, fun w₁ hrun f hf => ⟨j.built w₁ src, ?_, rfl, rfl⟩⟩
  rw [forM_append_of_ok _ hrun]
  exact forM_cons_of_error after hf

/-- The second of three sources is faulty. -/
theorem compileAll_of_failure_second :
    let w := worldOf [("/p/good.fig", "let a = 1;"), ("/p/bad.fig", "let a = ;"),
      ("/p/last.fig", "let c = 3;")]
    let j : Job := ⟨["/p/good.fig", "/p/bad.fig", "/p/last.fig"], "", none, false⟩
    ∃ w₁ w₂ f, j.refusesBatch w = false ∧
      compileAll { j with sources := ["/p/good.fig"] } w = .ok () w₁ ∧
      j.delivery w₁ "/p/bad.fig" = .error f ∧ j.compileAll w = .error f w₂ ∧
      w₂.files = w₁.files ∧ w₂.stdout = "compiled /p/good.fig -> /p/good.json\n" := by
  intro w j
  have hrefuses : j.refusesBatch w = false := by decide +kernel
  have hrun : (last? (compileAll { j with sources := ["/p/good.fig"] }) w).map (fun w₁ =>
      (w₁.stdout, (j.delivery w₁ "/p/bad.fig").toOption.isNone)) =
        some ("compiled /p/good.fig -> /p/good.json\n", true) := by decide +kernel
  obtain ⟨w₁, hw₁, hfacts⟩ := Option.map_eq_some_iff.1 hrun
  obtain ⟨hstdout, hnone⟩ := Prod.mk.inj hfacts
  cases hdelivery : j.delivery w₁ "/p/bad.fig" with
  | ok d =>
    rw [hdelivery] at hnone
    cases hnone
  | error f =>
    obtain ⟨w₂, hfailed, hfiles, hprinted⟩ := ((compileAll_of_failure j w).2 hrefuses
      ["/p/good.fig"] "/p/bad.fig" ["/p/last.fig"] rfl).2 w₁ (last?_eq_some_iff.1 hw₁) f hdelivery
    exact ⟨w₁, w₂, f, hrefuses, last?_eq_some_iff.1 hw₁, hdelivery, hfailed, hfiles,
      hprinted.trans hstdout⟩

/-! ### Documents that stay -/

theorem exists_delivers {sources : List String} : ∀ {w w' : World},
    sources.forM j.compile w = .ok () w' → ∃ ds, Delivers j w sources ds w' := by
  induction sources with
  | nil =>
    intro w w' h
    cases h
    exact ⟨[], .nil⟩
  | cons src rest ih =>
    intro w w' h
    change EStateM.bind (j.compile src) (fun _ => rest.forM j.compile) w = _ at h
    simp only [EStateM.bind, compile_eq] at h
    cases hdelivery : j.delivery w src with
    | error f =>
      rw [hdelivery] at h
      cases h
    | ok d =>
      rw [hdelivery] at h
      cases hstore : store src d.document.encode d.path (j.built w src) with
      | error f w₁ => simp [finish, hstore] at h
      | ok u w₁ =>
        simp only [finish, hstore] at h
        obtain ⟨ds, hds⟩ := ih h
        exact ⟨d :: ds, .cons hdelivery hstore hds⟩

theorem exists_delivers_of_compileAll (h : j.compileAll w = .ok () w') :
    ∃ ds, Delivers j w j.sources ds w' := by
  rw [compileAll_eq] at h
  split at h
  · cases h
  · exact exists_delivers h

def Delivery.bytes (d : Delivery) : List UInt8 :=
  d.document.encode.toUTF8.toList

/-- Whether two documents go to one place of the file system. -/
def Delivery.Meets (a b : Delivery) : Prop :=
  ∃ p q, a.path = some p ∧ b.path = some q ∧ canonical p = canonical q

/-- Whether the document of a source can be read where it was written. -/
def Delivery.KeptIn (d : Delivery) (files : FileSystem) : Prop :=
  ∀ p, d.path = some p → files.read p = .ok d.bytes

theorem files_of_store {text : String} {path : Option String}
    (h : store src text path w = .ok () w₁) :
    w₁.files = path.elim w.files fun p =>
      (w.files.makeDirectory (Path.directory p)).write p text.toUTF8.toList := by
  cases path with
  | none =>
    cases h
    rfl
  | some p =>
    dsimp only [store, bind, EStateM.bind, get, getThe, MonadStateOf.get, EStateM.get] at h
    split at h
    · cases h
    · cases h
      rfl

theorem keptIn_of_store (h : store src d.document.encode d.path w = .ok () w₁) :
    d.KeptIn w₁.files := by
  intro p hp
  rw [files_of_store h, hp]
  exact read_put_self _

variable {content : List UInt8}

theorem read_of_store (h : store src d.document.encode d.path w = .ok () w₁) {p : String}
    (hread : w.files.read p = .ok content) (hd : ∀ q, d.path = some q → canonical q = canonical p →
      d.bytes = content) : w₁.files.read p = .ok content := by
  rw [files_of_store h]
  cases hpath : d.path with
  | none => exact hread
  | some q =>
    by_cases heq : canonical q = canonical p
    · rw [← hd q hpath heq, ← read_eq_of_canonical_eq heq]
      exact read_put_self _
    · exact read_put_of_ne (Ne.symm heq) (read_makeDirectory _ hread)

/-- The path of a document in the output directory, which only depends on the last piece of the
name. -/
def documentPath (j : Job) (name : String) : String :=
  Path.within (Path.clean j.out) (Path.withExtension (Path.base name) extension)

theorem path_of_delivery {d : Delivery} (hout : Path.endsWithSlash j.out)
    (h : j.delivery w src = .ok d) : d.path = some (j.documentPath d.name) := by
  have hempty : j.out.isEmpty = false := by
    refine Bool.eq_false_iff.2 fun hempty => ?_
    rw [String.isEmpty_iff.1 hempty] at hout
    exact absurd hout (by decide)
  unfold delivery at h
  dsimp only at h
  split at h
  · cases h
  · simp only [destination, outIsDirectory, hempty, hout, Bool.true_or, Bool.false_eq_true,
      if_false, if_true] at h
    split at h
    · cases h
    · cases h
      rfl

namespace Delivers

variable {sources : List String} {ds : List Delivery} {w' : World}

variable (h : Delivers j w sources ds w')

include h

/-- What can be read stays, if whatever is written in its place is the same. -/
theorem read_of_forall {p : String} (hread : w.files.read p = .ok content)
    (hds : ∀ d ∈ ds, ∀ q, d.path = some q → canonical q = canonical p →
      d.bytes = content) : w'.files.read p = .ok content := by
  induction h with
  | nil => exact hread
  | cons _ hstore _ ih =>
    obtain ⟨hd, hds⟩ := List.forall_mem_cons.1 hds
    exact ih (read_of_store hstore hread hd) hds

/-- Every document stays if no two of them are different and go to one place. -/
theorem keptIn_of_forall
    (hds : ∀ a ∈ ds, ∀ b ∈ ds, a.Meets b → a.document = b.document) :
    ∀ d ∈ ds, d.KeptIn w'.files := by
  induction h with
  | nil => nofun
  | @cons w w₁ w₂ src rest d ds hdelivery hstore hrest ih =>
    refine List.forall_mem_cons.2 ⟨fun p hp => ?_, ih fun a ha b hb => ?_⟩
    · refine hrest.read_of_forall (keptIn_of_store hstore p hp) fun b hb q hq heq => ?_
      unfold Delivery.bytes
      rw [hds b (List.mem_cons_of_mem _ hb) d List.mem_cons_self ⟨q, p, hq, hp, heq⟩]
    · exact hds a (List.mem_cons_of_mem _ ha) b (List.mem_cons_of_mem _ hb)

theorem path_eq (hout : Path.endsWithSlash j.out) :
    ∀ d ∈ ds, d.path = some (j.documentPath d.name) := by
  induction h with
  | nil => nofun
  | cons hdelivery _ _ ih => exact List.forall_mem_cons.2 ⟨path_of_delivery hout hdelivery, ih⟩

end Delivers

theorem Delivery.document_eq_of_bytes_eq (h : a.bytes = b.bytes) : a.document = b.document := by
  have hchars := congrArg (fun bytes => (Text.Glyph.decode bytes).map Text.Glyph.char) h
  simp only [bytes, Text.Glyph.chars_decode_toUTF8] at hchars
  have hread := Json.read?_eq_some_iff.2 a.document.spells_encode
  rw [hchars, Json.read?_eq_some_iff.2 b.document.spells_encode] at hread
  have hback := a.document.ofJson?_toJson
  rw [← Option.some.inj hread, b.document.ofJson?_toJson] at hback
  exact (Option.some.inj hback).symm

theorem Delivery.document_eq_of_keptIn {files : FileSystem} (ha : a.KeptIn files)
    (hb : b.KeptIn files) (h : a.Meets b) : a.document = b.document := by
  obtain ⟨p, q, hp, hq, heq⟩ := h
  have hread := ha p hp
  rw [read_eq_of_canonical_eq heq, hb q hq] at hread
  exact document_eq_of_bytes_eq (Except.ok.inj hread).symm

/-- Every document that a batch makes can be read where it was written, in the end, exactly if no
two of them that go to one place are different.  In an output directory a document is named after
the last piece of the path of its source, whatever directory the source is in. -/
theorem keptIn_iff_of_compileAll (j : Job) (w w' : World) (h : j.compileAll w = .ok () w') :
    ∃ ds, Delivers j w j.sources ds w' ∧
      ((∀ d ∈ ds, d.KeptIn w'.files) ↔ ∀ a ∈ ds, ∀ b ∈ ds, a.Meets b → a.document = b.document) ∧
      (Path.endsWithSlash j.out = true → ∀ d ∈ ds, d.path = some (j.documentPath d.name)) := by
  obtain ⟨ds, hds⟩ := exists_delivers_of_compileAll h
  refine ⟨ds, hds, ⟨fun hkept a ha b hb => ?_, hds.keptIn_of_forall⟩, hds.path_eq⟩
  exact Delivery.document_eq_of_keptIn (hkept a ha) (hkept b hb)

/-- Two sources whose documents have different names. -/
theorem keptIn_iff_of_compileAll_two :
    let w := worldOf [("/a/one.fig", "let a = 1;"), ("/b/two.fig", "let b = 2;")]
    let j : Job := ⟨["/a/one.fig", "/b/two.fig"], "/out/", none, false⟩
    ∃ w', j.compileAll w = .ok () w' ∧ w'.files.contains "/out/one.json" = true ∧
      w'.files.contains "/out/two.json" = true ∧
      ∃ ds, Delivers j w j.sources ds w' ∧
        ((∀ d ∈ ds, d.KeptIn w'.files) ↔
          ∀ a ∈ ds, ∀ b ∈ ds, a.Meets b → a.document = b.document) ∧
        ∀ d ∈ ds, d.path = some (j.documentPath d.name) := by
  intro w j
  have hrun : (last? j.compileAll w).map (fun w' =>
      (w'.files.contains "/out/one.json", w'.files.contains "/out/two.json")) =
        some (true, true) := by decide +kernel
  obtain ⟨w', hw', hfacts⟩ := Option.map_eq_some_iff.1 hrun
  obtain ⟨hone, htwo⟩ := Prod.mk.inj hfacts
  have hok := last?_eq_some_iff.1 hw'
  obtain ⟨ds, hds, hkept, hpath⟩ := keptIn_iff_of_compileAll j w w' hok
  exact ⟨w', hok, hone, htwo, ds, hds, hkept, hpath (by decide)⟩

/-- Two sources with one name in different directories: both are told to be compiled, and the
document of the first is lost. -/
theorem lost_of_equal_base :
    let w := worldOf [("/a/one.fig", "let a = 1;"), ("/b/one.fig", "let b = 2;")]
    let j : Job := ⟨["/a/one.fig", "/b/one.fig"], "/out/", none, false⟩
    ∃ w' d, j.compileAll w = .ok () w' ∧
      w'.stdout = "compiled /a/one.fig -> /out/one.json\ncompiled /b/one.fig -> /out/one.json\n" ∧
      j.delivery w "/a/one.fig" = .ok d ∧ ¬d.KeptIn w'.files := by
  intro w j
  have hrun : (last? j.compileAll w).map (·.stdout) =
      some "compiled /a/one.fig -> /out/one.json\ncompiled /b/one.fig -> /out/one.json\n" := by
    decide +kernel
  have hdiffer : ((j.delivery w "/a/one.fig").toOption.bind fun a =>
      (last? (j.compile "/a/one.fig") w).bind fun w₁ =>
        (j.delivery w₁ "/b/one.fig").toOption.map fun b =>
          (a.path, b.path, a.document == b.document)) =
      some (some "/out/one.json", some "/out/one.json", false) := by decide +kernel
  obtain ⟨w', hw', hstdout⟩ := Option.map_eq_some_iff.1 hrun
  obtain ⟨ds, hds⟩ := exists_delivers_of_compileAll (last?_eq_some_iff.1 hw')
  cases hds with
  | @cons _ w₁ _ _ _ a _ ha hstore hrest =>
    cases hrest with
    | @cons _ _ _ _ _ b _ hb hstore' hrest =>
      cases hrest
      have hw₁ : last? (j.compile "/a/one.fig") w = some w₁ := by
        rw [last?_eq_some_iff, compile_eq, ha]
        exact hstore
      refine ⟨w', a, last?_eq_some_iff.1 hw', hstdout, ha, fun hkept => ?_⟩
      rw [ha, hw₁] at hdiffer
      change (j.delivery w₁ "/b/one.fig").toOption.map _ = _ at hdiffer
      rw [hb] at hdiffer
      obtain ⟨hpath, hrest⟩ := Prod.mk.inj (Option.some.inj hdiffer)
      obtain ⟨hpath', hne⟩ := Prod.mk.inj hrest
      have heq := Delivery.document_eq_of_keptIn hkept (keptIn_of_store hstore')
        ⟨_, _, hpath, hpath', rfl⟩
      rw [heq, beq_self_eq_true] at hne
      cases hne

end Diagram.CommandLine.Job
