import Diagram.Build
import Diagram.Proofs.Program.Judged
import Diagram.Proofs.Source.Highlighted
import Diagram.Proofs.Token.Layout
import Diagram.Proofs.Typing.Resolved

/-!
# Diagnostics of a source

A source is refused by the first stage that finds fault with it.  A scan fails before a character
that starts no token; a parse or an analysis fails where a token starts or stops.  Tokens start
and stop with visible characters, so that all of these places can be shown.

Main statement: `Build.Refused.points`.
-/

namespace Diagram

open List

open Text

theorem Area.isSolid_of_isBlank {c : Char} (h : isBlank c = false) : Area.isSolid c := by
  have hne : ∀ d : Char, isBlank d = true → (c != d) = true := by
    intro d hd
    rw [bne_iff_ne]
    rintro rfl
    rw [h] at hd
    cases hd
  simp only [isSolid, Bool.and_eq_true]
  exact ⟨⟨⟨hne ' ' (by decide), hne '\t' (by decide)⟩, hne '\r' (by decide)⟩, hne '\n' (by decide)⟩

namespace Token

variable {c : Char} {text gs : List Glyph} {source : List UInt8}

theorem isSolid_of_isGraphic (h : isGraphic c) : Area.isSolid c :=
  Area.isSolid_of_isBlank (isBlank_eq_false_of_toNat (toNat_of_isGraphic h))

def EndsVisibly (text : List Glyph) : Prop :=
  ∃ init g, text = init ++ [g] ∧ isGraphic g.char = true

theorem endsVisibly_of_forall (hne : text ≠ []) (h : ∀ g ∈ text, isGraphic g.char) :
    EndsVisibly text :=
  ⟨text.dropLast, text.getLast hne, (dropLast_append_getLast hne).symm, h _ (getLast_mem hne)⟩

theorem isGraphic_of_isWord (h : isWord c) : isGraphic c := by
  simp only [isWord, Bool.or_eq_true] at h
  rcases h with hstart | hdigit
  · have hrange := toNat_of_isWordStart hstart
    exact isGraphic_of_toNat (by omega)
  · have hrange := toNat_of_isDigit hdigit
    exact isGraphic_of_toNat (by omega)

theorem isGraphic_of_mem_numberRun : ∀ g ∈ numberRun gs, isGraphic g.char := by
  fun_induction numberRun gs with
  | case1 | case2 | case4 => simp
  | case3 g rest _ hnumber ih =>
    refine forall_mem_cons.2 ⟨?_, ih⟩
    simp only [Bool.or_eq_true, isSeparator, isRealMark, beq_iff_eq] at hnumber
    rcases hnumber with (hdigit | hseparator) | hmark
    · have hrange := toNat_of_isDigit hdigit
      exact isGraphic_of_toNat (by omega)
    · rcases hseparator with hchar | hchar <;> rw [hchar] <;> decide
    · rcases hmark with (hchar | hchar) | hchar <;> rw [hchar] <;> decide

theorem isGraphic_of_mem_rangeRun {dots : List Glyph} {symbol : Symbol}
    (h : rangeRun gs = some (symbol, dots)) : ∀ g ∈ dots, isGraphic g.char := by
  have hdot : isGraphic '.' = true := by decide
  have hequal : isGraphic '=' = true := by decide
  unfold rangeRun at h
  split at h
  · split at h
    case isTrue hdots =>
      split at h <;> cases h <;> simp_all
    case isFalse => cases h
  · split at h <;> cases h
    simp_all
  · cases h

theorem endsVisibly_of_stringBody {escaped : Bool} {tail : List Glyph} {cs : List Char}
    (h : stringBody escaped gs = some (cs, tail)) : EndsVisibly tail := by
  induction gs generalizing escaped cs tail with
  | nil => cases escaped <;> cases h
  | cons g rest ih =>
    rcases stringBody_cons escaped g with ⟨hquote, hend⟩ | ⟨e, f, hmore⟩
    · rw [hend] at h
      cases h
      exact ⟨[], g, rfl, by rw [hquote]; decide⟩
    · rw [hmore] at h
      obtain ⟨⟨ds, inner⟩, hinner, heq⟩ := Option.map_eq_some_iff.1 h
      cases heq
      obtain ⟨init, last, rfl, hlast⟩ := ih hinner
      exact ⟨g :: init, last, rfl, hlast⟩

theorem isGraphic_of_spelling {s : Symbol} (h : Symbol.ofSpelling? (Glyph.textOf text) = some s) :
    ∀ g ∈ text, isGraphic g.char := by
  intro g hg
  have hspelling : s.spelling = Glyph.textOf text := by
    have hfound := find?_some h
    simpa using hfound
  refine isGraphic_of_mem_spelling s g.char ?_
  rw [hspelling]
  simp only [Glyph.textOf, String.toList_ofList]
  exact mem_map_of_mem hg

variable {segments : List Segment}

theorem Cut.endsVisibly {g : Glyph} {rest : List Glyph} (h : Cut g rest segments) :
    ∀ s ∈ segments, ∀ lexeme, s.lexeme? = some lexeme →
      EndsVisibly s.text := by
  intro s hs lexeme hlexeme
  have hgiven := h.recuts s hs lexeme hlexeme
  have hne : s.text ≠ [] := by
    obtain ⟨g', tail, htext, -⟩ := hgiven
    simp [htext]
  cases h with
  | blank | comment => simp_all
  | word hstart =>
    rw [mem_singleton] at hs
    subst hs
    refine endsVisibly_of_forall hne fun x hx => isGraphic_of_isWord ?_
    exact mem_takeWhile_imp (p := fun g : Glyph => isWord g.char) hx
  | range hdigit hrun hrange hread =>
    simp only [mem_cons, not_mem_nil, or_false] at hs
    rcases hs with rfl | rfl
    · exact endsVisibly_of_forall hne fun x hx => isGraphic_of_mem_numberRun x (hrun ▸ hx)
    · exact endsVisibly_of_forall hne (isGraphic_of_mem_rangeRun hrange)
  | @number run lexeme' hdigit hrun hrange hread =>
    simp only [mem_cons, not_mem_nil, or_false] at hs
    rcases hs with rfl | rfl
    · refine endsVisibly_of_forall hne fun x hx => ?_
      have hmem : x ∈ run := rdropWhile_prefix _ run |>.subset hx
      exact isGraphic_of_mem_numberRun x (hrun ▸ hmem)
    · cases hlexeme
  | string hquote hbody =>
    rw [mem_singleton] at hs
    subst hs
    obtain ⟨init, last, htail, hlast⟩ := endsVisibly_of_stringBody hbody
    exact ⟨g :: init, last, by simp [htail], hlast⟩
  | symbol _ _ _ _ _ _ hspelling =>
    rw [mem_singleton] at hs
    subst hs
    exact endsVisibly_of_forall hne (isGraphic_of_spelling hspelling)

theorem Cuts.endsVisibly {gs : List Glyph} (h : Cuts gs segments) :
    ∀ s ∈ segments, ∀ lexeme, s.lexeme? = some lexeme → EndsVisibly s.text := by
  induction h with
  | nil => simp
  | cons hcut _ _ ih =>
    intro s hs
    rcases mem_append.1 hs with hs | hs
    · exact hcut.endsVisibly s hs
    · exact ih s hs

/-- What starts where a token of a source starts or stops can be shown. -/
theorem points_of_touches {tokens : List Token} {a : Area}
    (h : scan (Glyph.decode source) = .ok tokens) (ha : a.Touches tokens) : a.Points source := by
  obtain ⟨segments, hcuts, rfl⟩ := scanFrom_eq_ok_iff.1 h
  obtain ⟨t, ht, hstart⟩ := ha
  obtain ⟨before, s, behind, rfl, hlexeme, htstart, htstop⟩ := mem_place ht
  have hsource : Glyph.decode source = before.flatMap Segment.text ++
      (s.text ++ behind.flatMap Segment.text) := by
    simpa using hcuts.text_eq.symm
  have hmem : s ∈ before ++ s :: behind := by simp
  rcases hstart with hstart | hstop
  · obtain ⟨g, tail, htext, hgraphic, -⟩ := hcuts.recuts s hmem t.lexeme hlexeme
    rw [htext, cons_append] at hsource
    exact Area.points_before hsource (isSolid_of_isGraphic hgraphic) (hstart.trans (by rw [htstart]))
  · obtain ⟨init, g, htext, hgraphic⟩ := hcuts.endsVisibly s hmem t.lexeme hlexeme
    rw [htext, ← append_assoc, ← append_assoc] at hsource
    refine Area.points_behind hsource (isSolid_of_isGraphic hgraphic) ?_
    rw [hstop, htstop, htstart, ← Location.past_append, htext, append_assoc]

/-- A scan fails before a character that can be shown. -/
theorem points_of_scan_eq_error {e : Located Cause} (h : scan (Glyph.decode source) = .error e) :
    e.area.Points source := by
  obtain ⟨before, g, rest, snag, hsource, hsnag, rfl⟩ := scanFrom_eq_error h
  have hblank : isBlank g.char = false := by
    rw [Bool.eq_false_iff]
    intro hblank
    simp [segmentsAt, hblank] at hsnag
  exact Area.points_before hsource (Area.isSolid_of_isBlank hblank) rfl

end Token

namespace Build

/-- How a source is refused by the stage that finds fault with it. -/
inductive Refused (source : List UInt8) : Failure → Prop
  | tokens {e} (h : Token.scan (Glyph.decode source) = .error e) : Refused source (.tokens e)
  | program {tokens e} (hscan : Token.scan (Glyph.decode source) = .ok tokens)
      (h : Program.parse tokens = .error e) : Refused source (.program e)
  | typing {tokens p f} (hscan : Token.scan (Glyph.decode source) = .ok tokens)
      (hparse : Program.parse tokens = .ok p) (h : p.analyze.outcome = .error f) :
      Refused source (.typing f)

/-- Every failure of a stage is a diagnostic that points into the source. -/
theorem Refused.points {source : List UInt8} {f : Failure} (h : Refused source f) :
    ∃ d, f.problem.cause = .located d ∧ d.area.Points source := by
  cases h with
  | tokens h => exact ⟨_, rfl, Token.points_of_scan_eq_error h⟩
  | program hscan h =>
    exact ⟨_, rfl, Token.points_of_touches hscan (Program.touches_of_parse_eq_error h)⟩
  | typing hscan hparse h =>
    rcases (Program.shaped_of_parse hparse).analyze_outcome with ⟨q, hq, -⟩ | ⟨e, he, harea⟩
    · rw [hq] at h
      cases h
    · rw [he] at h
      cases h
      exact ⟨_, rfl, Token.points_of_touches hscan harea.touches⟩

/-- The bytes of `let a=1;`, a line end and a tab and `let b=;`, in which an operand is missing. -/
theorem Refused.points_operand :
    let source : List UInt8 := [0x6c, 0x65, 0x74, 0x20, 0x61, 0x3d, 0x31, 0x3b, 0x0d, 0x0a, 0x09,
      0x6c, 0x65, 0x74, 0x20, 0x62, 0x3d, 0x3b]
    ∃ e, Refused source (.program e) ∧ e.cause = .expectedOperand ∧
      ∃ d, (Failure.program e).problem.cause = .located d ∧ d.area.Points source := by
  intro source
  have hrefused : ∃ e, Refused source (.program e) ∧ e.cause = .expectedOperand :=
    ⟨_, .program rfl rfl, rfl⟩
  obtain ⟨e, he, hcause⟩ := hrefused
  exact ⟨e, he, hcause, Refused.points he⟩

end Build

end Diagram
