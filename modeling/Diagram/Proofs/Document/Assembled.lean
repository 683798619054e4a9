import Diagram.Proofs.Document.Definitions

/-!
# The layout of a document

Every entry of a document carries its place in the list as its id.  The public entries come
first and stand in no folder.  Behind them are the definitions of the actions, those of the
values, and what is displayed; each of these sections starts with a folder, and an entry stands
in the folder that most closely precedes it.  Nothing of the program is left out or written
twice.

Main statements: `Document.assembled_ofProgram`, `Program.assembled_of_analyze`.
-/

namespace Diagram

open List

namespace Document

/-- The id of the folder that an entry stands in, empty if it stands in none. -/
def Entry.folderId : Entry → String
  | .folder _ => ""
  | .expression e => e.folderId
  | .remark r => r.folderId

def Entry.folder? : Entry → Option Folder
  | .folder f => some f
  | _ => none

/-- The last folder of some entries, which is the closest to what follows them. -/
def closestFolder (entries : List Entry) : Option Folder :=
  (entries.filterMap Entry.folder?).getLast?

/-- Every entry but the folders stands in the folder that most closely precedes it. -/
def Foldered (entries : List Entry) : Prop :=
  ∀ before entry after, entries = before ++ entry :: after → entry.folder? = none →
    ∃ f, closestFolder before = some f ∧ entry.folderId = f.id

/-- The entry of a public expression: a note if the expression is a text, a formula otherwise. -/
def Publishes (sigs : Signatures) (e : Expr) (entry : Entry) : Prop :=
  match e.str? with
  | some s => entry = .remark ⟨entry.id, s, ""⟩
  | none => ∃ s, latex sigs e = .ok s ∧ entry = .expression (.plain entry.id "" s)

def Defines {α : Type} (sigs : Signatures) (formula : α → Except Defect Formula)
    (e : String × α) (entry : Entry) : Prop :=
  ∃ s, Defining sigs formula e s ∧
    entry = .expression { Expression.plain entry.id entry.folderId s with hidden := true }

def Displays (sigs : Signatures) (e : Element) (entry : Entry) : Prop :=
  ∃ x, entry = .expression x ∧ Shows sigs e x

/-- The section of what is displayed: nothing without a display block, and a folder with the
elements otherwise. -/
def DisplaySection (sigs : Signatures) : Option (List Element) → List Entry → Prop
  | none, entries => entries = []
  | some es, entries => ∃ f elements, entries = .folder f :: elements ∧
      Forall₂ (fun e entry => Displays sigs e entry ∧ entry.folderId = f.id) es elements

/-- The sections of the entries of a document, of which all but the public one start with a
folder. -/
structure Sections (p : Program) (entries : List Entry) where
  geometry : Folder
  acting : Folder
  defining : Folder
  publics : List Entry
  actions : List Entry
  values : List Entry
  display : List Entry
  eq_append : entries = .folder geometry :: publics ++ .folder acting :: actions ++
    .folder defining :: values ++ display
  published : Forall₂ (Publishes p.signatures) (p.entries.getD []) publics
  acted : Forall₂ (Defines p.signatures (actionFormula p.signatures)) p.actions.entries actions
  defined : Forall₂ (Defines p.signatures (valueFormula p.signatures)) p.identifiers.entries values
  displayed : DisplaySection p.signatures p.display display

/-- How many entries the display block of a program takes. -/
def displaySize (p : Program) : Nat :=
  (p.display.map fun es => 1 + es.length).getD 0

/-- The entries of a document are those of a program, each once and in its place. -/
structure Assembled (p : Program) (entries : List Entry) : Prop where
  length_eq : entries.length =
    3 + (p.entries.getD []).length + p.actions.size + p.identifiers.size + displaySize p
  ids : ∀ (i : Nat) (entry : Entry), entries[i]? = some entry → entry.id = toString i
  /-- The entries that define names are those of the two sections of definitions. -/
  sections : ∃ s : Sections p entries,
    entries.filter (·.definition?.isSome) = s.actions ++ s.values
  /-- The public entries and the folder before them stand in no folder. -/
  foldered : Foldered (entries.drop (1 + (p.entries.getD []).length))

/-! ### Drafts -/

/-- A draft that becomes an entry with the id and the folder that it is given. -/
def Draft.IsNumbered (draft : Draft) : Prop :=
  ∀ id folderId, (draft id folderId).id = id ∧ (draft id folderId).folderId = folderId ∧
    (draft id folderId).folder? = none

variable {sigs : Signatures} {e : Expr} {draft : Draft} {α : Type}
  {formula : α → Except Defect Formula} {folderId : String} {first : Nat} {drafts : List Draft}
  {entry : Entry} {xs ys entries : List Entry} {f : α → Except Defect Draft} {as : List α}
  {p : Program} {settings : Settings} {d : Document}

theorem isNumbered_of_publicDraft (h : publicDraft sigs e = .ok draft) :
    draft.IsNumbered ∧ ∀ id, Publishes sigs e (draft id "") := by
  unfold publicDraft at h
  split at h
  case h_1 s hs =>
    cases h
    refine ⟨fun _ _ => ⟨rfl, rfl, rfl⟩, fun id => ?_⟩
    unfold Publishes
    rw [hs]
    rfl
  case h_2 hs =>
    obtain ⟨s, hlatex, h⟩ := bind_ok_iff.1 h
    cases h
    refine ⟨fun _ _ => ⟨rfl, rfl, rfl⟩, fun id => ?_⟩
    unfold Publishes
    rw [hs]
    exact ⟨s, hlatex, rfl⟩

theorem isNumbered_of_drafting {e : String × α} (h : drafting sigs formula e = .ok draft) :
    draft.IsNumbered ∧ ∀ id folderId, Defines sigs formula e (draft id folderId) := by
  obtain ⟨f, hf, h⟩ := bind_ok_iff.1 h
  unfold definitionDraft at h
  split at h
  case h_1 => cases h
  case h_2 sig hsig =>
    cases h
    exact ⟨fun _ _ => ⟨rfl, rfl, rfl⟩, fun _ _ => ⟨_, ⟨sig, f, hsig, hf, rfl⟩, rfl⟩⟩

theorem isNumbered_of_elementDraft {e : Element} (h : elementDraft sigs e = .ok draft) :
    draft.IsNumbered ∧ ∀ id folderId, Displays sigs e (draft id folderId) := by
  refine ⟨?_, fun id folderId => exists_of_elementDraft ⟨draft, id, folderId, h, rfl⟩⟩
  -- The nine texts of an element and its click action.
  iterate 10 obtain ⟨_, -, h⟩ := bind_ok_iff.1 h
  cases h
  exact fun _ _ => ⟨rfl, rfl, rfl⟩

/-! ### Numbering -/

theorem mem_number (h : entry ∈ number folderId first drafts) :
    ∃ draft ∈ drafts, ∃ id, entry = draft id folderId := by
  obtain ⟨⟨draft, n⟩, hmem, rfl⟩ := mem_map.1 h
  exact ⟨draft, fst_mem_of_mem_zipIdx hmem, idOf n, rfl⟩

theorem length_number (folderId : String) (first : Nat) (drafts : List Draft) :
    (number folderId first drafts).length = drafts.length := by
  simp [number]

theorem length_folderWith (title : String) (collapsed : Bool) (first : Nat) (drafts : List Draft) :
    (folderWith title collapsed first drafts).length = drafts.length + 1 := by
  rw [folderWith, length_cons, length_number]

def NumberedFrom (first : Nat) (entries : List Entry) : Prop :=
  ∀ (i : Nat) (entry : Entry), entries[i]? = some entry → entry.id = idOf (first + i)

theorem NumberedFrom.append {next : Nat} (hxs : NumberedFrom first xs)
    (hnext : first + xs.length = next) (hys : NumberedFrom next ys) :
    NumberedFrom first (xs ++ ys) := by
  intro i entry hentry
  rw [getElem?_append] at hentry
  split at hentry
  case isTrue => exact hxs i entry hentry
  case isFalse hi =>
    have hplace : next + (i - xs.length) = first + i := by omega
    rw [← hplace]
    exact hys _ entry hentry

theorem NumberedFrom.cons (h : entry.id = idOf first) (hentries : NumberedFrom (first + 1) entries) :
    NumberedFrom first (entry :: entries) := by
  intro i e he
  cases i with
  | zero =>
    cases he
    exact h
  | succ i =>
    rw [show first + (i + 1) = first + 1 + i by omega]
    exact hentries i e he

theorem numberedFrom_number (h : ∀ draft ∈ drafts, draft.IsNumbered) (folderId : String)
    (first : Nat) : NumberedFrom first (number folderId first drafts) := by
  induction drafts generalizing first with
  | nil => exact fun i entry hentry => by simp [number] at hentry
  | cons draft drafts ih =>
    exact .cons (h draft mem_cons_self (idOf first) folderId).1
      (ih (fun d hd => h d (mem_cons_of_mem _ hd)) (first + 1))

theorem numberedFrom_folderWith (h : ∀ draft ∈ drafts, draft.IsNumbered) (title : String)
    (collapsed : Bool) (first : Nat) :
    NumberedFrom first (folderWith title collapsed first drafts) :=
  .cons rfl (numberedFrom_number h (idOf first) (first + 1))

/-- What holds of every entry that a draft becomes holds of the numbered entries. -/
theorem forall₂_number_of_draft {R : α → Entry → Prop} (h : as.mapM f = .ok drafts)
    (hR : ∀ a draft, f a = .ok draft → ∀ id, R a (draft id folderId)) (first : Nat) :
    Forall₂ R as (number folderId first drafts) := by
  have hdrafts := forall₂_of_mapM h
  clear h
  induction hdrafts generalizing first with
  | nil => exact .nil
  | cons ha _ ih => exact .cons (hR _ _ ha _) (ih (first + 1))

theorem isNumbered_of_mapM (h : as.mapM f = .ok drafts)
    (hf : ∀ a draft, f a = .ok draft → draft.IsNumbered) : ∀ draft ∈ drafts, draft.IsNumbered := by
  intro draft hdraft
  obtain ⟨a, -, ha⟩ := exists_of_forall₂ (forall₂_of_mapM h) hdraft
  exact hf a draft ha

/-! ### Folders -/

theorem closestFolder_append (xs ys : List Entry) :
    closestFolder (xs ++ ys) = (closestFolder ys).or (closestFolder xs) := by
  rw [closestFolder, filterMap_append, getLast?_append]
  rfl

theorem foldered_nil : Foldered [] := by
  intro before entry after h
  simp at h

theorem Foldered.append (hxs : Foldered xs) (hys : Foldered ys) : Foldered (xs ++ ys) := by
  intro before entry after h hentry
  rcases append_eq_append_iff.1 h with ⟨rest, rfl, hrest⟩ | ⟨rest, hrest, hafter⟩
  · -- The entry is one of `ys`, and its folder is one of them as well.
    obtain ⟨f, hf, hid⟩ := hys rest entry after hrest hentry
    exact ⟨f, by rw [closestFolder_append, hf]; rfl, hid⟩
  · cases rest with
    | nil =>
      obtain ⟨f, hf, hid⟩ := hys [] entry after (by simpa using hafter.symm) hentry
      simp [closestFolder] at hf
    | cons first rest =>
      obtain ⟨rfl, -⟩ := List.cons.inj hafter
      exact hxs before entry rest hrest hentry

theorem foldered_folderWith (h : ∀ draft ∈ drafts, draft.IsNumbered) (title : String)
    (collapsed : Bool) (first : Nat) : Foldered (folderWith title collapsed first drafts) := by
  have hin : ∀ entry ∈ number (idOf first) (first + 1) drafts,
      entry.folder? = none ∧ entry.folderId = idOf first := by
    intro entry hentry
    obtain ⟨draft, hdraft, id, rfl⟩ := mem_number hentry
    exact (h draft hdraft id (idOf first)).2.symm
  intro before entry after heq hentry
  cases before with
  | nil =>
    obtain ⟨rfl, -⟩ := List.cons.inj heq
    cases hentry
  | cons folder before =>
    obtain ⟨rfl, hnumber⟩ := List.cons.inj heq
    have hbefore : before.filterMap Entry.folder? = [] := by
      refine filterMap_eq_nil_iff.2 fun e he => (hin e ?_).1
      rw [hnumber]
      exact mem_append_left _ he
    refine ⟨⟨idOf first, title, collapsed, false⟩, ?_, (hin entry (by rw [hnumber]; simp)).2⟩
    simp [closestFolder, Entry.folder?, hbefore]

/-! ### Assembly -/

theorem Publishes.definition? (h : Publishes sigs e entry) : entry.definition? = none := by
  unfold Publishes at h
  split at h
  · rw [h]
    rfl
  · obtain ⟨s, -, h⟩ := h
    rw [h]
    rfl

theorem Defines.definition? {e : String × α} (h : Defines sigs formula e entry) :
    entry.definition?.isSome := by
  obtain ⟨s, -, h⟩ := h
  rw [h]
  rfl

theorem DisplaySection.definition? {sigs : Signatures} {es : Option (List Element)}
    {entries : List Entry} (h : DisplaySection sigs es entries) :
    ∀ entry ∈ entries, entry.definition? = none := by
  cases es with
  | none =>
    cases h
    simp
  | some es =>
    obtain ⟨f, elements, rfl, helements⟩ := h
    refine forall_mem_cons.2 ⟨rfl, fun entry hentry => ?_⟩
    obtain ⟨e, -, ⟨x, rfl, hshows⟩, -⟩ := exists_of_forall₂ helements hentry
    simp [Entry.definition?, hshows.hidden]

theorem Sections.filter_definition? (s : Sections p entries) :
    entries.filter (·.definition?.isSome) = s.actions ++ s.values := by
  have hpublics : s.publics.filter (·.definition?.isSome) = [] := by
    refine filter_eq_nil_iff.2 fun entry hentry => ?_
    obtain ⟨e, -, he⟩ := exists_of_forall₂ s.published hentry
    simp [he.definition?]
  have hactions : s.actions.filter (·.definition?.isSome) = s.actions := by
    refine filter_eq_self.2 fun entry hentry => ?_
    obtain ⟨e, -, he⟩ := exists_of_forall₂ s.acted hentry
    exact he.definition?
  have hvalues : s.values.filter (·.definition?.isSome) = s.values := by
    refine filter_eq_self.2 fun entry hentry => ?_
    obtain ⟨e, -, he⟩ := exists_of_forall₂ s.defined hentry
    exact he.definition?
  have hdisplay : s.display.filter (·.definition?.isSome) = [] :=
    filter_eq_nil_iff.2 fun entry hentry => by simp [s.displayed.definition? entry hentry]
  have hfolder : ∀ f, (Entry.folder f).definition?.isSome = false := fun _ => rfl
  calc entries.filter (·.definition?.isSome)
      = (Entry.folder s.geometry :: s.publics ++ .folder s.acting :: s.actions ++
          .folder s.defining :: s.values ++ s.display).filter (·.definition?.isSome) := by
        rw [← s.eq_append]
    _ = s.actions ++ s.values := by
        simp [filter_append, hfolder, hpublics, hactions, hvalues, hdisplay]

theorem Sections.length_eq {p : Program} {entries : List Entry} (s : Sections p entries) :
    entries.length =
      3 + (p.entries.getD []).length + p.actions.size + p.identifiers.size + displaySize p := by
  have hpublics := s.published.length_eq
  have hactions : p.actions.size = s.actions.length := s.acted.length_eq
  have hvalues : p.identifiers.size = s.values.length := s.defined.length_eq
  have hdisplay : displaySize p = s.display.length := by
    have hsection := s.displayed
    unfold displaySize
    generalize p.display = es at hsection ⊢
    cases es with
    | none => rw [show s.display = [] from hsection]; rfl
    | some es =>
      obtain ⟨f, elements, heq, helements⟩ := hsection
      rw [heq, length_cons, ← helements.length_eq]
      exact Nat.add_comm 1 es.length
  have hlength := congrArg List.length s.eq_append
  simp only [length_append, length_cons] at hlength
  omega

/-- The entries of a display block, numbered from `first` on. -/
def displayEntries (title : String) (first : Nat) (display : Option (List Draft)) : List Entry :=
  match display with
  | some elements => folderWith title false first elements
  | none => []

theorem exists_drafts (h : ofProgram settings p = .ok d) :
    ∃ publics actions values display,
      (p.entries.getD []).mapM (publicDraft p.signatures) = .ok publics ∧
      p.actions.entries.mapM (drafting p.signatures (actionFormula p.signatures)) = .ok actions ∧
      p.identifiers.entries.mapM (drafting p.signatures (valueFormula p.signatures)) = .ok values ∧
      p.display.mapM (·.mapM (elementDraft p.signatures)) = .ok display ∧
      d.entries = .folder ⟨idOf 0, settings.folders.geometry, true, true⟩ :: number "" 1 publics ++
        folderWith settings.folders.actions true (1 + publics.length) actions ++
        folderWith settings.folders.definitions true (1 + publics.length + 1 + actions.length)
          values ++
        displayEntries settings.folders.display
          (1 + publics.length + 1 + actions.length + 1 + values.length) display := by
  obtain ⟨publics, hpublics, h⟩ := bind_ok_iff.1 h
  obtain ⟨actions, hactions, h⟩ := bind_ok_iff.1 h
  obtain ⟨values, hvalues, h⟩ := bind_ok_iff.1 h
  obtain ⟨display, hdisplay, h⟩ := bind_ok_iff.1 h
  obtain ⟨ticker, -, h⟩ := bind_ok_iff.1 h
  cases h
  exact ⟨publics, actions, values, display, hpublics, hactions, hvalues, hdisplay, rfl⟩

section Display

variable {sigs : Signatures} {es : Option (List Element)} {display : Option (List Draft)}

variable (h : es.mapM (·.mapM (elementDraft sigs)) = .ok display)

include h

theorem foldered_displayEntries
    (title : String) (first : Nat) : Foldered (displayEntries title first display) := by
  cases optionMapM_eq_ok h with
  | none => exact foldered_nil
  | some hes =>
    have hdrafts := isNumbered_of_mapM hes fun _ _ h => (isNumbered_of_elementDraft h).1
    exact foldered_folderWith hdrafts title false first

theorem numberedFrom_displayEntries
    (title : String) (first : Nat) : NumberedFrom first (displayEntries title first display) := by
  cases optionMapM_eq_ok h with
  | none => exact fun i entry hentry => by simp [displayEntries] at hentry
  | some hes =>
    have hdrafts := isNumbered_of_mapM hes fun _ _ h => (isNumbered_of_elementDraft h).1
    exact numberedFrom_folderWith hdrafts title false first

theorem displaySection_displayEntries
    (title : String) (first : Nat) :
    DisplaySection sigs es (displayEntries title first display) := by
  cases optionMapM_eq_ok h with
  | none => rfl
  | some hes =>
    refine ⟨_, _, rfl, forall₂_number_of_draft hes (fun e draft hdraft id => ?_) (first + 1)⟩
    obtain ⟨hnumbered, hdisplays⟩ := isNumbered_of_elementDraft hdraft
    exact ⟨hdisplays id _, (hnumbered id _).2.1⟩

end Display

/-- The document of a program holds what the program declares, each thing once and in its
place. -/
theorem assembled_ofProgram (h : ofProgram settings p = .ok d) : Assembled p d.entries := by
  obtain ⟨publics, actions, values, display, hpublics, hactions, hvalues, hdisplay, hd⟩ :=
    exists_drafts h
  have npublics := isNumbered_of_mapM hpublics fun _ _ h => (isNumbered_of_publicDraft h).1
  have nactions := isNumbered_of_mapM hactions fun _ _ h => (isNumbered_of_drafting h).1
  have nvalues := isNumbered_of_mapM hvalues fun _ _ h => (isNumbered_of_drafting h).1
  have hlength : (p.entries.getD []).length = publics.length := (forall₂_of_mapM hpublics).length_eq
  let s : Sections p d.entries := {
    geometry := _
    acting := _
    defining := _
    publics := _
    actions := _
    values := _
    display := _
    eq_append := hd
    published := forall₂_number_of_draft hpublics
      (fun _ _ h id => (isNumbered_of_publicDraft h).2 id) 1
    acted := forall₂_number_of_draft hactions (fun _ _ h id => (isNumbered_of_drafting h).2 id _) _
    defined := forall₂_number_of_draft hvalues (fun _ _ h id => (isNumbered_of_drafting h).2 id _) _
    displayed := displaySection_displayEntries hdisplay _ _ }
  refine ⟨s.length_eq, fun i entry hentry => ?_, ⟨s, s.filter_definition?⟩, ?_⟩
  · have hids : NumberedFrom 0 d.entries := by
      rw [hd]
      refine .append (.append (.append (.cons rfl (numberedFrom_number npublics "" 1)) ?_
        (numberedFrom_folderWith nactions _ _ _)) ?_ (numberedFrom_folderWith nvalues _ _ _)) ?_
        (numberedFrom_displayEntries hdisplay _ _) <;>
      · simp only [length_append, length_cons, length_number, length_folderWith]
        omega
    simpa [idOf] using hids i entry hentry
  · have hdrop : d.entries.drop (1 + (p.entries.getD []).length) =
        folderWith settings.folders.actions true (1 + publics.length) actions ++
          (folderWith settings.folders.definitions true (1 + publics.length + 1 + actions.length)
            values ++
          displayEntries settings.folders.display
            (1 + publics.length + 1 + actions.length + 1 + values.length) display) := by
      rw [hd, append_assoc, append_assoc]
      refine drop_left' ?_
      rw [length_cons, length_number, hlength, Nat.add_comm]
    rw [hdrop]
    exact (foldered_folderWith nactions _ _ _).append
      ((foldered_folderWith nvalues _ _ _).append (foldered_displayEntries hdisplay _ _))

end Document

namespace Program

variable {tokens : List Token} {p q : Program}

/-- The document of an analyzed program, with every action and then every constant, value and
variable defined once and in increasing order of the names. -/
theorem assembled_of_analyze (hparse : Program.parse tokens = .ok p)
    (h : p.analyze.outcome = .ok q) (settings : Settings) :
    ∃ d, Document.ofProgram settings q = .ok d ∧ Document.Assembled q d.entries ∧
      q.actions.names.Pairwise (· < ·) ∧ q.identifiers.names.Pairwise (· < ·) ∧
      (∀ n, n ∈ q.actions.names ↔
        ∃ sig, p.signatures.get? n = some sig ∧ sig.declares = .action) ∧
      (∀ n, n ∈ q.identifiers.names ↔
        ∃ sig, p.signatures.get? n = some sig ∧ sig.declares.isValue = true) := by
  have hmade := wellMade_of_parse hparse
  obtain ⟨hidentifiers, hactions, -, -⟩ := Typing.names_of_analyze h
  obtain ⟨d, hd⟩ := exists_document hparse h settings
  refine ⟨d, hd, Document.assembled_ofProgram hd, pairwise_map.2 q.actions.sorted,
    pairwise_map.2 q.identifiers.sorted, fun n => ?_, fun n => ?_⟩
  · rw [hactions, NameMap.mem_names_iff, hmade.acts n]
    simp only [beq_iff_eq]
  · rw [hidentifiers, NameMap.mem_names_iff, hmade.values n]

/-- A program with a section of every kind. -/
theorem assembled_of_analyze_sections :
    let tokens := Token.ofText <|
      "var b: num = 1; let f(x: num) = x + b; const a = 2; action go \x7b b := f(a) \x7d " ++
      "public \x7b \"note\"; a; \x7d display \x7b (a, b): @rgb(1, 2, 3), " ++
      "click \x7b action go() \x7d; (b, a): @rgb(1, 2, 3); \x7d"
    ∃ p q, Program.parse tokens = .ok p ∧ p.analyze.outcome = .ok q ∧
      ∃ d, Document.ofProgram .default q = .ok d ∧ Document.Assembled q d.entries ∧
        q.actions.names.Pairwise (· < ·) ∧ q.identifiers.names.Pairwise (· < ·) ∧
        (∀ n, n ∈ q.actions.names ↔
          ∃ sig, p.signatures.get? n = some sig ∧ sig.declares = .action) ∧
        (∀ n, n ∈ q.identifiers.names ↔
          ∃ sig, p.signatures.get? n = some sig ∧ sig.declares.isValue = true) := by
  intro tokens
  obtain ⟨p, hp, q, hq, -⟩ : ∃ p, Program.parse tokens = .ok p ∧
      ∃ q, p.analyze.outcome = .ok q ∧ q.display.map List.length = some 2 := by decide +kernel
  exact ⟨p, q, hp, hq, assembled_of_analyze hp hq .default⟩

end Program

end Diagram
