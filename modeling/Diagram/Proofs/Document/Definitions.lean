import Diagram.Proofs.Document.Compiled
import Diagram.Proofs.Formula.Meaning
import Diagram.Proofs.Formula.Rendered
import Diagram.Proofs.Markup.Apart
import Diagram.Proofs.Token.Spans
import Diagram.Proofs.Typing.Eliminated
import Mathlib.Data.List.Nodup

/-!
# The definitions of a document

The hidden entries of a document are the definitions of its names: those of the actions first,
then those of the values, each in the order of the names.  A definition starts with the letter of
all names and the name as a subscript, without its underscores.  So two names have one target name
exactly if they differ only in underscores.

Main statements: `Document.forall₂_definitions`, `Document.definedNames_nodup_iff`.
-/

namespace Diagram

open List Formula Mark Document

variable {ε α β : Type} {f : α → Except ε β} {as : List α} {bs : List β}

theorem forall₂_of_mapM (h : as.mapM f = .ok bs) : Forall₂ (fun a b => f a = .ok b) as bs := by
  induction as generalizing bs with
  | nil =>
    cases h
    exact .nil
  | cons a as ih =>
    rw [mapM_cons, bind_ok_iff] at h
    obtain ⟨b, hb, h⟩ := h
    obtain ⟨bs, hbs, h⟩ := bind_ok_iff.1 h
    cases h
    exact .cons hb (ih hbs)

theorem map_eq_of_forall₂ {γ : Type} {P : α → β → Prop} {f : α → γ} {g : β → γ}
    (h : Forall₂ P as bs) (hfg : ∀ a b, P a b → f a = g b) : as.map f = bs.map g := by
  induction h with
  | nil => rfl
  | cons hab _ ih => rw [map_cons, map_cons, hfg _ _ hab, ih]

theorem optionMapM_eq_ok {a? : Option α} {b? : Option β} (h : a?.mapM f = .ok b?) :
    Option.Rel (fun a b => f a = .ok b) a? b? := by
  cases a? with
  | none =>
    cases h
    exact .none
  | some a =>
    obtain ⟨b, hb, rfl⟩ := map_ok_iff.1 h
    exact .some hb

namespace Document

/-- An entry is what a draft becomes when it is numbered. -/
def Drafted (draft : Except Defect Draft) (entry : Entry) : Prop :=
  ∃ d id folderId, draft = .ok d ∧ entry = d id folderId

variable {α : Type} {as : List α} {settings : Settings} {p : Program} {d : Document}
  {sigs : Signatures} {e : Element} {entry : Entry}

theorem forall₂_number {f : α → Except Defect Draft} {drafts : List Draft}
    (h : as.mapM f = .ok drafts) (folderId : String) (first : Nat) :
    Forall₂ (fun a => Drafted (f a)) as (number folderId first drafts) := by
  have hdrafts := forall₂_of_mapM h
  clear h
  induction hdrafts generalizing first with
  | nil => exact .nil
  | cons ha _ ih => exact .cons ⟨_, _, _, ha, rfl⟩ (ih (first + 1))

/-- How a definition of one kind is drafted. -/
def drafting {α : Type} (sigs : Signatures) (formula : α → Except Defect Formula)
    (e : String × α) : Except Defect Draft := do
  definitionDraft sigs e.1 (← formula e.2)

def valueFormula (sigs : Signatures) (e : Expr) : Except Defect Formula :=
  (ofExpr sigs e).mapError .formula

theorem exists_entries (h : ofProgram settings p = .ok d) :
    ∃ (secret acting defining : Folder) (entries actions definitions display : List Entry),
      d.entries = .folder secret :: entries ++ .folder acting :: actions ++
        .folder defining :: definitions ++ display ∧
      Forall₂ (fun e => Drafted (publicDraft p.signatures e)) (p.entries.getD []) entries ∧
      Forall₂ (fun e => Drafted (drafting p.signatures (actionFormula p.signatures) e))
        p.actions.entries actions ∧
      Forall₂ (fun e => Drafted (drafting p.signatures (valueFormula p.signatures) e))
        p.identifiers.entries definitions ∧
      (∀ entry ∈ display, (∃ f, entry = .folder f) ∨
        ∃ es e, p.display = some es ∧ e ∈ es ∧ Drafted (elementDraft p.signatures e) entry) ∧
      Option.Rel (fun t c => clock p.signatures settings.playing t = .ok c) p.ticker d.ticker := by
  obtain ⟨entries, hentries, h⟩ := bind_ok_iff.1 h
  obtain ⟨actions, hactions, h⟩ := bind_ok_iff.1 h
  obtain ⟨definitions, hdefinitions, h⟩ := bind_ok_iff.1 h
  obtain ⟨display, hdisplay, h⟩ := bind_ok_iff.1 h
  obtain ⟨ticker, hticker, h⟩ := bind_ok_iff.1 h
  cases h
  refine ⟨_, _, _, _, _, _, _, rfl, forall₂_number hentries _ _, forall₂_number hactions _ _,
    forall₂_number hdefinitions _ _, ?_, optionMapM_eq_ok hticker⟩
  have hrel := optionMapM_eq_ok hdisplay
  generalize p.display = display? at hrel
  cases hrel with
  | none => simp
  | @some es drafts hes =>
    intro entry hentry
    rcases mem_cons.1 hentry with rfl | hentry
    · exact .inl ⟨_, rfl⟩
    · obtain ⟨e, he, hdrafted⟩ := exists_of_forall₂ (forall₂_number hes _ _) hentry
      exact .inr ⟨es, e, rfl, he, hdrafted⟩

def Entry.definition? : Entry → Option String
  | .expression e => if e.hidden then some e.latex else none
  | _ => none

/-- The formulas that define names, in the order of the entries. -/
def definitions (d : Document) : List String :=
  d.entries.filterMap Entry.definition?

def leftSide (definition : String) : String :=
  String.ofList (definition.toList.takeWhile (· != '='))

/-- The name that a definition starts with, up to and with the brace behind its subscript. -/
def definedName (definition : String) : String :=
  String.ofList (definition.toList.takeWhile (· != '\x7d') ++ ['\x7d'])

def leftSides (d : Document) : List String :=
  d.definitions.map leftSide

def definedNames (d : Document) : List String :=
  d.definitions.map definedName

theorem definition?_of_publicDraft {e : Expr} (h : Drafted (publicDraft sigs e) entry) :
    entry.definition? = none := by
  obtain ⟨d, id, folderId, h, rfl⟩ := h
  unfold publicDraft at h
  split at h
  · cases h
    rfl
  · obtain ⟨s, -, h⟩ := bind_ok_iff.1 h
    cases h
    rfl

/-- What the entry of a display element is written with. -/
structure Shows (sigs : Signatures) (e : Element) (x : Expression) : Prop where
  hidden : x.hidden = false
  color : colorFields sigs e.color = .ok (x.color, x.colorLatex)
  quantities : Forall₂ (fun q s => quantityLatex sigs q = .ok s)
    [e.what, e.point.bind (·.size), e.point.bind (·.opacity), e.stroke.bind (·.width),
      e.stroke.bind (·.opacity), e.fill.bind (·.opacity), e.label.bind (·.scale),
      e.label.bind (·.angle)]
    [x.latex, x.pointSize, x.pointOpacity, x.lineWidth, x.lineOpacity, x.fillOpacity, x.labelSize,
      x.labelAngle]
  click : Option.Rel (fun a c => ∃ f, actionFormula sigs a = .ok f ∧ c = ⟨true, f.text⟩) e.click
    x.clickableInfo

theorem exists_of_elementDraft (h : Drafted (elementDraft sigs e) entry) :
    ∃ x, entry = .expression x ∧ Shows sigs e x := by
  obtain ⟨d, id, folderId, h, rfl⟩ := h
  obtain ⟨what, hwhat, h⟩ := bind_ok_iff.1 h
  obtain ⟨⟨color, colorLatex⟩, hcolor, h⟩ := bind_ok_iff.1 h
  obtain ⟨pointSize, hpointSize, h⟩ := bind_ok_iff.1 h
  obtain ⟨pointOpacity, hpointOpacity, h⟩ := bind_ok_iff.1 h
  obtain ⟨lineWidth, hlineWidth, h⟩ := bind_ok_iff.1 h
  obtain ⟨lineOpacity, hlineOpacity, h⟩ := bind_ok_iff.1 h
  obtain ⟨fillOpacity, hfillOpacity, h⟩ := bind_ok_iff.1 h
  obtain ⟨labelSize, hlabelSize, h⟩ := bind_ok_iff.1 h
  obtain ⟨labelAngle, hlabelAngle, h⟩ := bind_ok_iff.1 h
  obtain ⟨click, hclick, h⟩ := bind_ok_iff.1 h
  cases h
  refine ⟨_, rfl, rfl, hcolor, ?_, ?_⟩
  · exact .cons hwhat <| .cons hpointSize <| .cons hpointOpacity <| .cons hlineWidth <|
      .cons hlineOpacity <| .cons hfillOpacity <| .cons hlabelSize <| .cons hlabelAngle .nil
  · have hrel := optionMapM_eq_ok hclick
    generalize e.click = click? at hrel
    cases hrel with
    | none => exact .none
    | some hf => exact .some ⟨_, hf, rfl⟩

theorem definition?_of_elementDraft (h : Drafted (elementDraft sigs e) entry) :
    entry.definition? = none := by
  obtain ⟨x, rfl, hshows⟩ := exists_of_elementDraft h
  simp [Entry.definition?, hshows.hidden]

def Defining {α : Type} (sigs : Signatures) (formula : α → Except Defect Formula)
    (e : String × α) (definition : String) : Prop :=
  ∃ sig f, sigs.get? e.1 = some sig ∧ formula e.2 = .ok f ∧
    definition = (equality (head sig) f).text

theorem definition?_of_drafting {formula : α → Except Defect Formula} {e : String × α}
    (h : Drafted (drafting sigs formula e) entry) :
    ∃ definition, entry.definition? = some definition ∧ Defining sigs formula e definition := by
  obtain ⟨d, id, folderId, h, rfl⟩ := h
  obtain ⟨f, hf, h⟩ := bind_ok_iff.1 h
  unfold definitionDraft at h
  split at h
  case h_1 => cases h
  case h_2 sig hsig =>
    cases h
    exact ⟨_, rfl, sig, f, hsig, hf, rfl⟩

theorem forall₂_filterMap {P : α → Entry → Prop} {Q : α → String → Prop} {entries : List Entry}
    (h : Forall₂ P as entries)
    (hPQ : ∀ a entry, P a entry → ∃ s, entry.definition? = some s ∧ Q a s) :
    Forall₂ Q as (entries.filterMap Entry.definition?) := by
  induction h with
  | nil => exact .nil
  | cons hab _ ih =>
    obtain ⟨s, hs, hQ⟩ := hPQ _ _ hab
    rw [filterMap_cons_some hs]
    exact .cons hQ ih

theorem exists_definitions (h : ofProgram settings p = .ok d) :
    ∃ actions values, d.definitions = actions ++ values ∧
      Forall₂ (Defining p.signatures (actionFormula p.signatures)) p.actions.entries actions ∧
      Forall₂ (Defining p.signatures (valueFormula p.signatures)) p.identifiers.entries values := by
  obtain ⟨_, _, _, entries, actions, values, display, hd, hentries, hactions, hvalues, hdisplay, -⟩ :=
    exists_entries h
  have hentries : entries.filterMap Entry.definition? = [] := by
    refine filterMap_eq_nil_iff.2 fun entry hentry => ?_
    obtain ⟨e, -, hdrafted⟩ := exists_of_forall₂ hentries hentry
    exact definition?_of_publicDraft hdrafted
  have hdisplay : display.filterMap Entry.definition? = [] := by
    refine filterMap_eq_nil_iff.2 fun entry hentry => ?_
    rcases hdisplay entry hentry with ⟨f, rfl⟩ | ⟨_, e, -, -, hdrafted⟩
    · rfl
    · exact definition?_of_elementDraft hdrafted
  refine ⟨actions.filterMap Entry.definition?, values.filterMap Entry.definition?, ?_,
    forall₂_filterMap hactions fun _ _ => definition?_of_drafting,
    forall₂_filterMap hvalues fun _ _ => definition?_of_drafting⟩
  simp [definitions, hd, filterMap_append, filterMap_cons, hentries, hdisplay, Entry.definition?]

theorem forall₂_definitions (h : ofProgram settings p = .ok d) :
    Forall₂ (fun n s => ∃ sig f, p.signatures.get? n = some sig ∧
      s = (equality (head sig) f).text) (p.actions.names ++ p.identifiers.names)
      d.definitions := by
  obtain ⟨actions, values, hd, hactions, hvalues⟩ := exists_definitions h
  rw [hd]
  refine rel_append ?_ ?_
  · exact forall₂_map_left_iff.2 (hactions.imp fun _ _ ⟨sig, f, hsig, _, hs⟩ =>
      ⟨sig, f, hsig, hs⟩)
  · exact forall₂_map_left_iff.2 (hvalues.imp fun _ _ ⟨sig, f, hsig, _, hs⟩ =>
      ⟨sig, f, hsig, hs⟩)

end Document

/-- A text of letters, digits and underscores. -/
def IsWord (s : String) : Prop :=
  ∀ c ∈ s.toList, Token.isWord c = true

instance (s : String) : Decidable (IsWord s) :=
  s.toList.decidableBAll _

theorem Token.Spells.isWord {source : List Text.Glyph} {tokens : List Token} {n : String}
    (h : Token.Spells tokens n) (hscan : Token.scan source = .ok tokens) : IsWord n := by
  obtain ⟨t, ht, hn⟩ := h
  exact Token.isWord_of_scan hscan ht hn

namespace Formula

theorem markup_ofName (n : String) :
    (ofName n).markup = [.symbol 'X', .subscript [.run (mangled n)]] := by
  simp [ofName, markup, mangled, baseLetter]

theorem charsOf_ofName (flag : Bool) (n : String) :
    charsOf flag (ofName n).markup =
      symbolChars flag 'X' ++ ['_', '\x7b'] ++ (mangled n).toList ++ ['\x7d'] := by
  simp [markup_ofName, charsOf, braced, runChars]

theorem toList_text_ofName (n : String) :
    (ofName n).text.toList = ['X', '_', '\x7b'] ++ (mangled n).toList ++ ['\x7d'] := by
  have hletter : symbolChars false 'X' = ['X'] := by decide
  rw [text, Markup.text, String.toList_ofList, charsOf_ofName]
  rfl

theorem mangled_toList (n : String) : (mangled n).toList = n.toList.filter (· != '_') :=
  String.toList_ofList

/-- Two names have one target name exactly if they differ only in underscores. -/
theorem text_ofName_inj {m n : String} :
    (ofName m).text = (ofName n).text ↔ mangled m = mangled n := by
  constructor
  · intro h
    have hchars := congrArg String.toList h
    rw [toList_text_ofName, toList_text_ofName] at hchars
    exact String.toList_inj.1 (append_cancel_left (append_cancel_right hchars))
  · intro h
    rw [← String.toList_inj, toList_text_ofName, toList_text_ofName, h]

theorem not_mem_charsOf_names {c : Char} (hc : Token.isWord c = false)
    (hc' : c ∉ [' ', ',', '\x7b', '\x7d']) (ns : List String) (hns : ∀ n ∈ ns, IsWord n)
    (flag : Bool) : c ∉ charsOf flag (itemsMarkup (ns.map ofName)) := by
  have hname : ∀ n, IsWord n → ∀ flag, c ∉ charsOf flag (ofName n).markup := by
    intro n hn flag hmem
    rw [charsOf_ofName] at hmem
    simp only [append_assoc, mem_append, mangled_toList, mem_filter] at hmem
    have hX : symbolChars flag 'X' = [' ', 'X'] ∨ symbolChars flag 'X' = ['X'] := by
      cases flag <;> decide
    have hwords : ∀ d : Char, Token.isWord d = true → c ≠ d := by
      rintro d hd rfl
      simp [hc] at hd
    have hXc := hwords 'X' (by decide)
    have hbar := hwords '_' (by decide)
    rcases hmem with hmem | hmem | ⟨hmem, -⟩ | hmem
    · rcases hX with hX | hX <;> simp_all
    · simp_all
    · simp [hn c hmem] at hc
    · simp_all
  induction ns generalizing flag with
  | nil => simp [itemsMarkup, charsOf]
  | cons n ns ih =>
    have hn := hname n (hns n mem_cons_self)
    cases ns with
    | nil => simpa [itemsMarkup] using hn flag
    | cons m ns =>
      have hcomma : ∀ flag, symbolChars flag ',' = [','] := by decide
      have hrest := ih (fun k hk => hns k (mem_cons_of_mem _ hk))
      simp only [map_cons, itemsMarkup, charsOf_append, charsOf, mem_append, not_or]
      refine ⟨hn flag, ?_, hrest _⟩
      rw [chars_symbol, hcomma, mem_singleton]
      rintro rfl
      simp at hc'

end Formula

namespace Document

variable {n : String} {sig : Signature}

/-- A text that starts with the target name of a word. -/
theorem definedName_of_append {s : String} (hn : IsWord n) {rest : List Char}
    (h : s.toList = (ofName n).text.toList ++ rest) :
    definedName s = (ofName n).text := by
  have hname : ∀ c ∈ (mangled n).toList, (c != '\x7d') = true := by
    intro c hc
    rw [mangled_toList, mem_filter] at hc
    have hword := hn c hc.1
    refine bne_iff_ne.2 ?_
    rintro rfl
    exact absurd hword (by decide)
  have hbefore : ∀ c ∈ ['X', '_', '\x7b'] ++ (mangled n).toList, (c != '\x7d') = true := by
    intro c hc
    rcases mem_append.1 hc with hc | hc
    · exact (by simp : ∀ c ∈ ['X', '_', '\x7b'], (c != '\x7d') = true) c hc
    · exact hname c hc
  rw [← String.toList_inj, definedName, h, toList_text_ofName,
    append_assoc, takeWhile_append_of_pos hbefore]
  simp

/-- A signature all of whose names are words. -/
def SpelledOut (sig : Signature) : Prop :=
  IsWord sig.name ∧ ∀ q ∈ sig.paramList, IsWord q.name

theorem flagAfter_ofName (flag : Bool) (n : String) : flagAfter flag (ofName n).markup = false := by
  rfl

/-- The left side of a definition is the name, and what follows it has no equals sign. -/
theorem exists_markup_head (h : SpelledOut sig) :
    ∃ tail, (head sig).markup = (ofName sig.name).markup ++ tail ∧
      flagAfter false (head sig).markup = false ∧
      '=' ∉ charsOf false tail := by
  unfold head
  split
  · exact ⟨[], by simp, flagAfter_ofName false sig.name, by simp [charsOf]⟩
  · have hparams := not_mem_charsOf_names (c := '=') (by decide) (by decide)
      (sig.paramList.map (·.name)) (by simpa using h.2) false
    rw [map_map] at hparams
    refine ⟨.opening .paren ::
      (itemsMarkup (sig.paramList.map fun p => .ofName p.name) ++ [.closing .paren]),
      by simp [markup], by rw [markup, flagAfter_append]; rfl, ?_⟩
    have hleft : '=' ∉ "\\left".toList ++ Bracket.paren.left.toList := by decide
    have hright : '=' ∉ "\\right".toList ++ Bracket.paren.right.toList := by decide
    simp only [charsOf, charsOf_append, chars_opening, chars_closing, append_nil, endsInLetter]
    exact fun hmem => (mem_append.1 hmem).elim hleft fun hmem =>
      (mem_append.1 hmem).elim hparams hright

theorem exists_text_definition (h : SpelledOut sig) (f : Formula) :
    ∃ tail, '=' ∉ tail ∧
      (head sig).text.toList = (ofName sig.name).text.toList ++ tail ∧
      (equality (head sig) f).text.toList =
        (head sig).text.toList ++ '=' :: charsOf false f.markup := by
  obtain ⟨tail, hhead, hlast, htail⟩ := exists_markup_head h
  have hequals : symbolChars false '=' = ['='] := by decide
  have hends : (symbol '=').endsInLetter = false := by decide
  refine ⟨charsOf false tail, htail, ?_, ?_⟩
  · simp only [text, Markup.text, String.toList_ofList, hhead, charsOf_append, flagAfter_ofName]
  · simp only [equality, text, Markup.text, String.toList_ofList, markup,
      Connector.marks, append_assoc, singleton_append, charsOf_append, hlast,
      charsOf, chars_symbol, hequals, hends]

theorem not_mem_text_ofName (hn : IsWord n) : '=' ∉ (ofName n).text.toList := by
  simpa [itemsMarkup, text, Markup.text] using
    not_mem_charsOf_names (c := '=') (by decide) (by decide) [n] (by simpa using hn) false

theorem leftSide_definition (h : SpelledOut sig) (f : Formula) :
    leftSide (equality (head sig) f).text = (head sig).text := by
  obtain ⟨tail, htail, hhead, htext⟩ := exists_text_definition h f
  have hbefore : ∀ c ∈ (head sig).text.toList, (c != '=') = true := by
    intro c hc
    rw [hhead] at hc
    refine bne_iff_ne.2 ?_
    rintro rfl
    exact (mem_append.1 hc).elim (not_mem_text_ofName h.1) htail
  rw [← String.toList_inj, leftSide, htext,
    takeWhile_append_of_pos hbefore]
  simp

theorem definedName_definition (h : SpelledOut sig) (f : Formula) :
    definedName (equality (head sig) f).text = (ofName sig.name).text := by
  obtain ⟨tail, -, hhead, htext⟩ := exists_text_definition h f
  rw [hhead, append_assoc] at htext
  exact definedName_of_append h.1 htext

theorem definedName_head (h : SpelledOut sig) :
    definedName (head sig).text = (ofName sig.name).text := by
  obtain ⟨tail, -, hhead, -⟩ := exists_text_definition h (.letter 'X')
  exact definedName_of_append h.1 hhead

end Document

namespace Program

/-- A constant, a value, a variable or an action is declared under a name. -/
def Names (p : Program) (n : String) : Prop :=
  ∃ sig, p.signatures.get? n = some sig ∧ (sig.declares.isValue = true ∨ sig.declares = .action)

def definedNames (p : Program) : List String :=
  p.actions.names ++ p.identifiers.names

/-- What the definitions of the names have on their left sides. -/
def heads (p : Program) : List String :=
  p.definedNames.map fun n => ((p.signatures.get? n).map fun sig => (head sig).text).getD ""

variable {source : List Text.Glyph} {tokens : List Token} {p q : Program} {n : String}

theorem WellMade.mem_definedNames_iff (h : p.WellMade tokens) : n ∈ p.definedNames ↔ p.Names n := by
  rw [definedNames, mem_append, NameMap.mem_names_iff, NameMap.mem_names_iff, h.acts n, h.values n]
  constructor
  · rintro (⟨sig, hsig, hkind⟩ | ⟨sig, hsig, hkind⟩)
    · exact ⟨sig, hsig, .inr (eq_of_beq hkind)⟩
    · exact ⟨sig, hsig, .inl hkind⟩
  · rintro ⟨sig, hsig, hkind | hkind⟩
    · exact .inr ⟨sig, hsig, hkind⟩
    · exact .inl ⟨sig, hsig, beq_iff_eq.2 hkind⟩

theorem WellMade.nodup_definedNames (h : p.WellMade tokens) : p.definedNames.Nodup := by
  refine nodup_append.2 ⟨p.actions.nodup_names, p.identifiers.nodup_names, ?_⟩
  rintro n haction _ hvalue rfl
  obtain ⟨sig, hsig, hkind⟩ := (h.acts n).1 (NameMap.mem_names_iff.1 haction)
  obtain ⟨sig', hsig', hkind'⟩ := (h.values n).1 (NameMap.mem_names_iff.1 hvalue)
  cases hsig.symm.trans hsig'
  simp [eq_of_beq hkind, Declares.isValue] at hkind'

theorem spelledOut_of_analyze (hscan : Token.scan source = .ok tokens)
    (hparse : Program.parse tokens = .ok p) (h : p.analyze.outcome = .ok q) {sig : Signature}
    (hsig : q.signatures.get? n = some sig) :
    sig.name = n ∧ Document.SpelledOut sig ∧
      ∃ sig₀, p.signatures.get? n = some sig₀ ∧ head sig₀ = head sig := by
  have hmade := wellMade_of_parse hparse
  obtain ⟨-, -, -, hbare⟩ := Typing.names_of_analyze h
  obtain ⟨sig₀, hsig₀, heq⟩ : ∃ sig₀, p.signatures.get? n = some sig₀ ∧ sig₀.bare = sig.bare := by
    have hn := hbare n
    rw [hsig] at hn
    exact Option.map_eq_some_iff.1 hn.symm
  have hwritten := hmade.written n sig₀ hsig₀
  have hspelled : sig₀.bare.name = n ∧ Document.SpelledOut sig₀.bare :=
    ⟨hmade.keyed n sig₀ hsig₀, hwritten.name.isWord hscan,
      fun r hr => (hwritten.params r hr).2.isWord hscan⟩
  have hhead : head sig₀.bare = head sig.bare := by rw [heq]
  rw [heq] at hspelled
  exact ⟨hspelled.1, hspelled.2, sig₀, hsig₀, hhead⟩

theorem leftSides_ofProgram (hscan : Token.scan source = .ok tokens)
    (hparse : Program.parse tokens = .ok p) (h : p.analyze.outcome = .ok q) {settings : Settings}
    {d : Document} (hd : ofProgram settings q = .ok d) :
    d.leftSides = p.heads ∧ d.definedNames = p.definedNames.map (fun n => (ofName n).text) ∧
      d.definedNames = d.leftSides.map definedName := by
  obtain ⟨hidentifiers, hactions, -, -⟩ := Typing.names_of_analyze h
  have hdefinitions := forall₂_definitions hd
  rw [hidentifiers, hactions] at hdefinitions
  refine ⟨(map_eq_of_forall₂ hdefinitions ?_).symm, (map_eq_of_forall₂ hdefinitions ?_).symm, ?_⟩
  · rintro n s ⟨sig, f, hsig, rfl⟩
    obtain ⟨-, hspelled, sig₀, hsig₀, hhead⟩ := spelledOut_of_analyze hscan hparse h hsig
    rw [hsig₀, leftSide_definition hspelled, ← hhead]
    rfl
  · rintro n s ⟨sig, f, hsig, rfl⟩
    obtain ⟨rfl, hspelled, -⟩ := spelledOut_of_analyze hscan hparse h hsig
    exact (definedName_definition hspelled f).symm
  · rw [Document.leftSides, map_map]
    refine map_congr_left fun s hs => ?_
    obtain ⟨n, -, sig, f, hsig, rfl⟩ := exists_of_forall₂ hdefinitions hs
    obtain ⟨-, hspelled, -⟩ := spelledOut_of_analyze hscan hparse h hsig
    rw [Function.comp_apply, leftSide_definition hspelled,
      definedName_definition hspelled, definedName_head hspelled]

theorem ready_of_analyze (hparse : Program.parse tokens = .ok p) (h : p.analyze.outcome = .ok q) :
    q.Ready := by
  obtain ⟨q', hq', hready⟩ | ⟨e, he, -⟩ := (shaped_of_parse hparse).analyze_outcome
  · cases h.symm.trans hq'
    exact hready
  · rw [h] at he
    cases he

theorem exists_document (hparse : Program.parse tokens = .ok p) (h : p.analyze.outcome = .ok q)
    (settings : Settings) : ∃ d, ofProgram settings q = .ok d :=
  (ready_of_analyze hparse h).exists_ofProgram settings

/-- The document of an analyzed program defines the names of the program.  The target names are
distinct exactly if no two names differ only in underscores, and then the left sides of the
definitions are distinct as well. -/
theorem definedNames_nodup_iff (hscan : Token.scan source = .ok tokens)
    (hparse : Program.parse tokens = .ok p) (h : p.analyze.outcome = .ok q) (settings : Settings) :
    ∃ d, Document.ofProgram settings q = .ok d ∧ d.leftSides = p.heads ∧
      d.definedNames = p.definedNames.map (fun n => (Formula.ofName n).text) ∧
      (∀ n, n ∈ p.definedNames ↔ p.Names n) ∧
      (d.definedNames.Nodup ↔
        ∀ m n, p.Names m → p.Names n → Formula.mangled m = Formula.mangled n → m = n) ∧
      (d.definedNames.Nodup → d.leftSides.Nodup) := by
  have hmade := wellMade_of_parse hparse
  obtain ⟨d, hd⟩ := exists_document hparse h settings
  obtain ⟨hheads, hnames, hsides⟩ := leftSides_ofProgram hscan hparse h hd
  refine ⟨d, hd, hheads, hnames, fun n => hmade.mem_definedNames_iff, ?_, fun hnodup => ?_⟩
  · rw [hnames, nodup_map_iff_inj_on hmade.nodup_definedNames]
    simp only [hmade.mem_definedNames_iff, text_ofName_inj]
    exact ⟨fun hinj m n hm hn => hinj m hm n hn, fun hinj m hm n hn => hinj m n hm hn⟩
  · rw [hsides] at hnodup
    exact .of_map _ hnodup

/-- Names that are kept apart by more than their underscores. -/
theorem definedNames_nodup_iff_action :
    let source := Text.Glyph.decode
      "var x_1 = 0; let f_1(x: int) = x; action step \x7b x_1 := f_1(x_1) \x7d".toUTF8.toList
    ∃ tokens p q, Token.scan source = .ok tokens ∧ Program.parse tokens = .ok p ∧
      p.analyze.outcome = .ok q ∧
      p.heads = ["X_\x7bstep\x7d", "X_\x7bf1\x7d\\left(X_\x7bx\x7d\\right)", "X_\x7bx1\x7d"] ∧
      ∃ d, ofProgram .default q = .ok d ∧ d.leftSides = p.heads ∧
        d.definedNames = p.definedNames.map (fun n => (ofName n).text) ∧
        (∀ n, n ∈ p.definedNames ↔ p.Names n) ∧
        (d.definedNames.Nodup ↔
          ∀ m n, p.Names m → p.Names n → mangled m = mangled n → m = n) ∧
        (d.definedNames.Nodup → d.leftSides.Nodup) := by
  intro source
  obtain ⟨tokens, hscan, p, hp, q, hq, hheads⟩ :
      ∃ tokens, Token.scan source = .ok tokens ∧ ∃ p, Program.parse tokens = .ok p ∧
        ∃ q, p.analyze.outcome = .ok q ∧ p.heads =
          ["X_\x7bstep\x7d", "X_\x7bf1\x7d\\left(X_\x7bx\x7d\\right)", "X_\x7bx1\x7d"] := by
    decide +kernel
  exact ⟨tokens, p, q, hscan, hp, hq, hheads, definedNames_nodup_iff hscan hp hq .default⟩

/-- Two names that differ only in an underscore have one target name. -/
theorem leftSides_of_underscore :
    let source := Text.Glyph.decode "let a_b = 1; let ab = 2;".toUTF8.toList
    ∃ tokens p q d, Token.scan source = .ok tokens ∧ Program.parse tokens = .ok p ∧
      p.analyze.outcome = .ok q ∧ ofProgram .default q = .ok d ∧
      p.definedNames = ["a_b", "ab"] ∧
      d.definedNames = ["X_\x7bab\x7d", "X_\x7bab\x7d"] ∧
      d.leftSides = ["X_\x7bab\x7d", "X_\x7bab\x7d"] := by
  intro source
  obtain ⟨tokens, hscan, p, hp, q, hq, hnames, hheads⟩ :
      ∃ tokens, Token.scan source = .ok tokens ∧ ∃ p, Program.parse tokens = .ok p ∧
        ∃ q, p.analyze.outcome = .ok q ∧ p.definedNames = ["a_b", "ab"] ∧
          p.heads = ["X_\x7bab\x7d", "X_\x7bab\x7d"] := by
    decide +kernel
  obtain ⟨d, hd⟩ := exists_document hp hq .default
  obtain ⟨hsides, hdefined, -⟩ := leftSides_ofProgram hscan hp hq hd
  refine ⟨tokens, p, q, d, hscan, hp, hq, hd, hnames, ?_, hsides.trans hheads⟩
  rw [hdefined, hnames]
  decide +kernel

end Program

end Diagram
