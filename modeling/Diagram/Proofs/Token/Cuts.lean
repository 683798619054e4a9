import Diagram.Token.Lexer
import Mathlib.Data.List.DropRight

/-!
# How a source is cut

What may be cut at a place of a source, said once: a blank, a comment, a word, a number with the
separators or the range symbol behind it, a string or a symbol.  A source is scanned by cutting
it piece by piece, and every piece is a part of the source where it was cut.

Main statements: `segmentsAt_eq_ok_iff`, `scanFrom_eq_ok_iff`, `scanFrom_eq_error`.
-/

namespace Diagram.Token

open List Segment

open Text

section Characters

variable {c : Char}

theorem toNat_of_isBlank (h : isBlank c) : c.toNat ≤ 0x20 ∨ 0x85 ≤ c.toNat := by
  simp only [isBlank, inRanges, blankRanges, any_cons, any_nil, Bool.or_false,
    Bool.or_eq_true, Bool.and_eq_true, decide_eq_true_eq] at h
  omega

theorem toNat_of_isGraphic (h : isGraphic c) : 0x20 < c.toNat ∧ c.toNat < 0x7f := by
  simp only [isGraphic, Bool.and_eq_true, decide_eq_true_eq, Char.lt_def] at h
  exact h

theorem toNat_of_isDigit (h : c.isDigit) : 0x30 ≤ c.toNat ∧ c.toNat ≤ 0x39 := by
  simp only [Char.isDigit, Bool.and_eq_true, decide_eq_true_eq, ge_iff_le,
    UInt32.le_iff_toNat_le] at h
  simp at h
  omega

theorem toNat_of_isWordStart (h : isWordStart c) : 0x41 ≤ c.toNat ∧ c.toNat ≤ 0x7a := by
  rcases Bool.or_eq_true_iff.1 h with hscore | hletter
  · rw [beq_iff_eq.1 hscore]
    decide
  rcases Bool.or_eq_true_iff.1 hletter with hupper | hlower
  · have hbounds : 0x41 ≤ c.toNat ∧ c.toNat ≤ 0x5a := of_decide_eq_true hupper
    omega
  · obtain ⟨hleast, hmost⟩ := Bool.and_eq_true_iff.1 hlower
    have hbounds : 0x61 ≤ c.toNat ∧ c.toNat ≤ 0x7a :=
      ⟨of_decide_eq_true hleast, of_decide_eq_true hmost⟩
    omega

theorem isBlank_eq_false_of_toNat (h : 0x20 < c.toNat ∧ c.toNat < 0x7f) : isBlank c = false := by
  rw [Bool.eq_false_iff]
  intro hblank
  have := toNat_of_isBlank hblank
  omega

theorem isBlank_of_isWordStart (h : isWordStart c) : isBlank c = false := by
  have := toNat_of_isWordStart h
  exact isBlank_eq_false_of_toNat (by omega)

theorem isBlank_of_isDigit (h : c.isDigit) : isBlank c = false := by
  have := toNat_of_isDigit h
  exact isBlank_eq_false_of_toNat (by omega)

theorem isWordStart_of_isDigit (h : c.isDigit) : isWordStart c = false := by
  rw [Bool.eq_false_iff]
  intro hstart
  have := toNat_of_isDigit h
  have := toNat_of_isWordStart hstart
  omega

end Characters

section Runs

theorem numberRun_isPrefix (gs : List Glyph) : numberRun gs <+: gs := by
  fun_induction numberRun gs with
  | case1 | case2 | case4 => exact nil_prefix
  | case3 g rest _ _ ih => exact (prefix_cons_inj g).2 ih

variable {gs : List Glyph}

theorem rangeRun_isPrefix {dots : List Glyph} {symbol : Symbol}
    (h : rangeRun gs = some (symbol, dots)) : dots <+: gs := by
  unfold rangeRun at h
  split at h
  · split at h
    · split at h <;> cases h
      · exact ⟨_, rfl⟩
      · exact ⟨_, rfl⟩
    · cases h
  · split at h <;> cases h
    exact prefix_rfl
  · cases h

theorem lineComment_isPrefix (continued : Bool) (gs : List Glyph) :
    lineComment continued gs <+: gs := by
  induction gs generalizing continued with
  | nil => cases continued <;> exact nil_prefix
  | cons g rest ih =>
    cases continued with
    | true => exact (prefix_cons_inj g).2 (ih _)
    | false =>
      unfold lineComment
      split
      · exact (prefix_cons_inj g).2 nil_prefix
      · exact (prefix_cons_inj g).2 (ih _)

theorem blockComment_isPrefix (afterStar : Bool) (gs : List Glyph) :
    blockComment afterStar gs <+: gs := by
  induction gs generalizing afterStar with
  | nil => cases afterStar <;> exact nil_prefix
  | cons g rest ih =>
    unfold blockComment
    split
    · exact (prefix_cons_inj g).2 nil_prefix
    · exact (prefix_cons_inj g).2 (ih _)

theorem commentRun_isPrefix {g : Glyph} {rest text : List Glyph}
    (h : commentRun g rest = some text) : ∃ tail, text = g :: tail ∧ tail <+: rest := by
  unfold commentRun at h
  split at h
  · cases h
  · rename_i next more
    split at h
    · cases h
      exact ⟨_, rfl, (prefix_cons_inj next).2 (lineComment_isPrefix _ _)⟩
    · split at h <;> cases h
      exact ⟨_, rfl, (prefix_cons_inj next).2 (blockComment_isPrefix _ _)⟩

/-- The body of a string ends with a quote, or its first glyph adds to what is behind it. -/
theorem stringBody_cons (escaped : Bool) (g : Glyph) :
    (g.char = '"' ∧ ∀ rest, stringBody escaped (g :: rest) = some ([], [g])) ∨
      ∃ (e : Bool) (f : List Char → List Char), ∀ rest, stringBody escaped (g :: rest) =
        (stringBody e rest).map fun body => (f body.1, g :: body.2) := by
  cases escaped with
  | true => exact .inr ⟨false, (unescape g.char :: ·), fun _ => rfl⟩
  | false =>
    by_cases hquote : g.char = '"'
    · exact .inl ⟨hquote, fun _ => if_pos hquote⟩
    by_cases hescape : g.char = '\\'
    · exact .inr ⟨true, id, fun _ => (if_neg hquote).trans (if_pos hescape)⟩
    · exact .inr ⟨false, (g.char :: ·), fun _ => (if_neg hquote).trans (if_neg hescape)⟩

theorem stringBody_isPrefix {escaped : Bool} {hs : List Glyph} {cs : List Char}
    (h : stringBody escaped gs = some (cs, hs)) : hs <+: gs := by
  induction gs generalizing escaped cs hs with
  | nil => cases escaped <;> cases h
  | cons g rest ih =>
    rcases stringBody_cons escaped g with ⟨-, hend⟩ | ⟨e, f, hmore⟩
    · rw [hend] at h
      cases h
      exact (prefix_cons_inj g).2 nil_prefix
    · rw [hmore] at h
      obtain ⟨⟨ds, inner⟩, hinner, heq⟩ := Option.map_eq_some_iff.1 h
      cases heq
      exact (prefix_cons_inj g).2 (ih hinner)

theorem symbolTail_isPrefix (raw : String) (gs : List Glyph) : symbolTail raw gs <+: gs := by
  fun_induction symbolTail raw gs with
  | case1 | case3 => exact nil_prefix
  | case2 raw g rest _ ih => exact (prefix_cons_inj g).2 ih

end Runs

variable (run : List Glyph)

/-- The separators at the end of a number. -/
def trailOf : List Glyph :=
  run.rtakeWhile fun g => isSeparator g.char

/-- A number without the separators at its end. -/
def bodyOf : List Glyph :=
  run.rdropWhile fun g => isSeparator g.char

theorem bodyOf_append_trailOf : bodyOf run ++ trailOf run = run :=
  rdropWhile_append_rtakeWhile

/-- What can be cut at the head of `g :: rest`. -/
inductive Cut (g : Glyph) (rest : List Glyph) : List Segment → Prop
  | blank (hblank : isBlank g.char = true) : Cut g rest [⟨none, [g]⟩]
  | word (hstart : isWordStart g.char = true) : Cut g rest [wordSegment (g :: rest)]
  | range {run dots symbol i} (hdigit : g.char.isDigit = true)
      (hrun : numberRun (g :: rest) = run)
      (hrange : rangeRun ((g :: rest).drop run.length) = some (symbol, dots))
      (hread : Decimal.readInteger? (significant run) = some i) :
      Cut g rest [⟨some (.int i), run⟩, ⟨some (.symbol symbol), dots⟩]
  | number {run lexeme} (hdigit : g.char.isDigit = true) (hrun : numberRun (g :: rest) = run)
      (hrange : rangeRun ((g :: rest).drop run.length) = none)
      (hread : lexemeOfNumber (significant run) = .ok lexeme) :
      Cut g rest [⟨some lexeme, bodyOf run⟩, ⟨none, trailOf run⟩]
  | comment {text} (hslash : g.char = '/') (hrun : commentRun g rest = some text) :
      Cut g rest [⟨none, text⟩]
  | string {cs tail} (hquote : g.char = '"') (hbody : stringBody false rest = some (cs, tail)) :
      Cut g rest [⟨some (.str (String.ofList cs)), g :: tail⟩]
  | symbol {tail s} (hstart : isWordStart g.char = false) (hdigit : g.char.isDigit = false)
      (hquote : g.char ≠ '"') (hgraphic : isGraphic g.char = true)
      (hcomment : g.char = '/' → commentRun g rest = none)
      (htail : symbolTail (String.singleton g.char) rest = tail)
      (hspelling : Symbol.ofSpelling? (Glyph.textOf (g :: tail)) = some s) :
      Cut g rest [⟨some (.symbol s), g :: tail⟩]

theorem numberSegments_eq (gs : List Glyph) :
    numberSegments gs =
      match rangeRun (gs.drop (numberRun gs).length) with
      | some (symbol, dots) =>
        match Decimal.readInteger? (significant (numberRun gs)) with
        | some i => .ok [⟨some (.int i), numberRun gs⟩, ⟨some (.symbol symbol), dots⟩]
        | none => .error ⟨.invalidInteger, some (numberRun gs)⟩
      | none =>
        match lexemeOfNumber (significant (numberRun gs)) with
        | .ok lexeme =>
          .ok [⟨some lexeme, bodyOf (numberRun gs)⟩, ⟨none, trailOf (numberRun gs)⟩]
        | .error cause => .error ⟨cause, some (bodyOf (numberRun gs))⟩ := by
  have hbody : (numberRun gs).take ((numberRun gs).length - (trailOf (numberRun gs)).length) =
      bodyOf (numberRun gs) := by
    have hlength := congrArg List.length (bodyOf_append_trailOf (numberRun gs))
    rw [length_append] at hlength
    conv => lhs; arg 2; rw [← bodyOf_append_trailOf (numberRun gs)]
    rw [← hlength, Nat.add_sub_cancel, take_left]
  rw [← hbody]
  rfl

variable {g : Glyph} {rest gs more : List Glyph} {segments : List Segment}

theorem segmentsAt_eq_ok_iff : segmentsAt g rest = .ok segments ↔ Cut g rest segments := by
  constructor
  · intro h
    unfold segmentsAt at h
    split at h
    case isTrue hblank =>
      cases h
      exact .blank hblank
    split at h
    case isTrue hstart =>
      cases h
      exact .word hstart
    split at h
    case isTrue hdigit =>
      rw [numberSegments_eq] at h
      split at h
      · split at h <;> cases h
        exact .range hdigit rfl ‹_› ‹_›
      · split at h <;> cases h
        exact .number hdigit rfl ‹_› ‹_›
    rename_i hblank hstart hdigit
    split at h
    · rename_i text hrun
      cases h
      split at hrun
      case isTrue hslash => exact .comment hslash hrun
      case isFalse => cases hrun
    · rename_i hcomment
      split at h
      case isTrue hquote =>
        unfold stringSegment at h
        split at h <;> cases h
        exact .string hquote ‹_›
      case isFalse hquote =>
        split at h
        case isTrue hgraphic =>
          unfold symbolSegment at h
          dsimp only at h
          split at h <;> cases h
          refine .symbol (by simpa using hstart) (by simpa using hdigit) hquote hgraphic ?_ rfl ‹_›
          intro hslash
          rwa [if_pos hslash] at hcomment
        case isFalse => cases h
  · intro h
    unfold segmentsAt
    cases h with
    | blank hblank => rw [if_pos hblank]
    | word hstart =>
      rw [if_neg (by simp [isBlank_of_isWordStart hstart]), if_pos hstart]
    | range hdigit hrun hrange hread | number hdigit hrun hrange hread =>
      subst hrun
      rw [if_neg (by simp [isBlank_of_isDigit hdigit]),
        if_neg (by simp [isWordStart_of_isDigit hdigit]), if_pos hdigit, numberSegments_eq]
      simp [hrange, hread]
    | comment hslash hrun =>
      have hblank : isBlank '/' = false := by decide
      have hstart : isWordStart '/' = false := by decide
      simp [hslash, hblank, hstart, hrun]
    | string hquote hbody =>
      have hblank : isBlank '"' = false := by decide
      have hstart : isWordStart '"' = false := by decide
      simp [hquote, hblank, hstart, stringSegment, hbody, Except.map]
    | symbol hstart hdigit hquote hgraphic hcomment htail hspelling =>
      have hblank : isBlank g.char = false :=
        isBlank_eq_false_of_toNat (toNat_of_isGraphic hgraphic)
      have hnone : (if g.char = '/' then commentRun g rest else none) = none := by
        split
        case isTrue hslash => exact hcomment hslash
        case isFalse => rfl
      subst htail
      simp [hblank, hstart, hdigit, hquote, hgraphic, hnone, symbolSegment, hspelling, Except.map]

theorem numberRun_of_isDigit (h : g.char.isDigit) (rest : List Glyph) :
    numberRun (g :: rest) = g :: numberRun rest := by
  have hdot : g.char ≠ '.' := by
    rintro hdot
    rw [hdot] at h
    exact absurd h (by decide)
  simp [numberRun, hdot, h]

theorem Cut.text_isPrefix (h : Cut g rest segments) :
    ∃ tail, segments.flatMap text = g :: tail ∧ tail <+: rest := by
  cases h with
  | blank => exact ⟨[], rfl, nil_prefix⟩
  | word hstart =>
    have hword : isWord g.char = true := by simp [isWord, hstart]
    refine ⟨rest.takeWhile fun g => isWord g.char, ?_, takeWhile_prefix _⟩
    simp [wordSegment, hword]
  | @range run dots symbol i hdigit hrun hrange _ =>
    obtain ⟨more, hmore⟩ := numberRun_isPrefix (g :: rest)
    obtain ⟨far, hfar⟩ := rangeRun_isPrefix hrange
    rw [hrun] at hmore
    rw [numberRun_of_isDigit hdigit] at hrun
    have hwhole : run ++ (dots ++ far) = g :: rest := by
      rw [hfar, ← hmore, drop_left]
    rw [← hrun, cons_append, List.cons.injEq] at hwhole
    refine ⟨numberRun rest ++ dots, by simp [← hrun], far, ?_⟩
    rw [append_assoc, hwhole.2]
  | @number run lexeme hdigit hrun _ _ =>
    rw [numberRun_of_isDigit hdigit] at hrun
    refine ⟨numberRun rest, ?_, numberRun_isPrefix rest⟩
    simp [bodyOf_append_trailOf, hrun]
  | comment _ hrun =>
    obtain ⟨tail, rfl, htail⟩ := commentRun_isPrefix hrun
    exact ⟨tail, by simp, htail⟩
  | string _ hbody => exact ⟨_, by simp, stringBody_isPrefix hbody⟩
  | symbol _ _ _ _ _ htail _ => exact ⟨_, by simp, htail ▸ symbolTail_isPrefix _ _⟩

/-- How a source is cut into segments. -/
inductive Cuts : List Glyph → List Segment → Prop
  | nil : Cuts [] []
  | cons {g rest more segments others} (hcut : Cut g rest segments)
      (hsplit : g :: rest = segments.flatMap text ++ more) (hmore : Cuts more others) :
      Cuts (g :: rest) (segments ++ others)

theorem Cuts.text_eq (h : Cuts gs segments) : segments.flatMap text = gs := by
  induction h with
  | nil => rfl
  | cons _ hsplit _ ih => rw [flatMap_append, ih, hsplit]

theorem scanFrom_skip (skip : Nat) (l : Location) (gs : List Glyph) :
    scanFrom skip l gs = scanFrom 0 (l.past (gs.take skip)) (gs.drop skip) := by
  induction gs generalizing skip l with
  | nil => cases skip <;> simp [scanFrom]
  | cons g rest ih =>
    cases skip with
    | zero => rfl
    | succ n => simpa [scanFrom] using ih n (l.after g)

theorem scanFrom_of_cut (l : Location) (hcut : Cut g rest segments)
    (hsplit : g :: rest = segments.flatMap text ++ more) :
    scanFrom 0 l (g :: rest) =
      match scanFrom 0 (l.past (segments.flatMap text)) more with
      | .error e => .error e
      | .ok tokens => .ok (place l segments ++ tokens) := by
  obtain ⟨tail, htext, -⟩ := hcut.text_isPrefix
  have hrest : rest = tail ++ more := by
    rw [htext] at hsplit
    exact (List.cons.inj hsplit).2
  have hcount : glyphCount segments - 1 = tail.length := by
    unfold glyphCount
    rw [htext]
    simp
  have hskip : scanFrom (glyphCount segments - 1) (l.after g) rest =
      scanFrom 0 (l.past (segments.flatMap text)) more := by
    rw [hcount, scanFrom_skip, hrest, take_left, drop_left, htext, Location.past_cons]
  rw [scanFrom, segmentsAt_eq_ok_iff.2 hcut]
  exact hskip ▸ rfl

theorem place_append (l : Location) (segments others : List Segment) :
    place l (segments ++ others) =
      place l segments ++ place (l.past (segments.flatMap text)) others := by
  induction segments generalizing l with
  | nil => rfl
  | cons s rest ih =>
    obtain ⟨lexeme?, text⟩ := s
    cases lexeme? <;> simp [place, ih, Location.past_append]

/-- The source where a scan goes on is shorter than before. -/
theorem length_lt_of_cut (hcut : Cut g rest segments)
    (hsplit : g :: rest = segments.flatMap text ++ more) :
    more.length < (g :: rest).length := by
  obtain ⟨tail, htext, -⟩ := hcut.text_isPrefix
  rw [hsplit, htext]
  simp only [length_append, length_cons]
  omega

theorem Cut.exists_split (hcut : Cut g rest segments) :
    ∃ more, g :: rest = segments.flatMap text ++ more := by
  obtain ⟨tail, htext, more, hmore⟩ := hcut.text_isPrefix
  exact ⟨more, by rw [htext, ← hmore, cons_append]⟩

theorem scanFrom_of_cuts (h : Cuts gs segments) (l : Location) :
    scanFrom 0 l gs = .ok (place l segments) := by
  induction h generalizing l with
  | nil => rfl
  | cons hcut hsplit _ ih => rw [scanFrom_of_cut l hcut hsplit, ih, place_append]

/-- A scan succeeds exactly where the source can be cut, and gives the lexemes of the cuts. -/
theorem scanFrom_eq_ok_iff {gs : List Glyph} {l : Location} {tokens : List Token} :
    scanFrom 0 l gs = .ok tokens ↔ ∃ segments, Cuts gs segments ∧ tokens = place l segments := by
  constructor
  · intro h
    match gs with
    | [] =>
      cases h
      exact ⟨[], .nil, rfl⟩
    | g :: rest =>
      cases hat : segmentsAt g rest with
      | error snag =>
        rw [scanFrom, hat] at h
        cases h
      | ok segments =>
        have hcut := segmentsAt_eq_ok_iff.1 hat
        obtain ⟨more, hsplit⟩ := hcut.exists_split
        rw [scanFrom_of_cut l hcut hsplit] at h
        cases hmore : scanFrom 0 (l.past (segments.flatMap text)) more with
        | error e =>
          rw [hmore] at h
          cases h
        | ok others =>
          rw [hmore] at h
          cases h
          have hlength := length_lt_of_cut hcut hsplit
          obtain ⟨cuts, hcuts, rfl⟩ := scanFrom_eq_ok_iff.1 hmore
          exact ⟨segments ++ cuts, .cons hcut hsplit hcuts, (place_append l _ _).symm⟩
  · rintro ⟨segments, hcuts, rfl⟩
    exact scanFrom_of_cuts hcuts l
termination_by gs.length
decreasing_by exact hlength

/-- A scan fails at a place of the source where nothing can be cut. -/
theorem scanFrom_eq_error {gs : List Glyph} {l : Location} {e : Located Cause}
    (h : scanFrom 0 l gs = .error e) :
    ∃ before g rest snag, gs = before ++ g :: rest ∧ segmentsAt g rest = .error snag ∧
      e = snag.located (l.past before) := by
  match gs with
  | [] => cases h
  | g :: rest =>
    cases hat : segmentsAt g rest with
    | error snag =>
      rw [scanFrom, hat] at h
      cases h
      exact ⟨[], g, rest, snag, rfl, hat, rfl⟩
    | ok segments =>
      have hcut := segmentsAt_eq_ok_iff.1 hat
      obtain ⟨more, hsplit⟩ := hcut.exists_split
      rw [scanFrom_of_cut l hcut hsplit] at h
      cases hmore : scanFrom 0 (l.past (segments.flatMap text)) more with
      | ok others =>
        rw [hmore] at h
        cases h
      | error e' =>
        rw [hmore] at h
        cases h
        have hlength := length_lt_of_cut hcut hsplit
        obtain ⟨before, g', rest', snag, hgs, hsnag, he⟩ := scanFrom_eq_error hmore
        refine ⟨segments.flatMap text ++ before, g', rest', snag, ?_, hsnag, ?_⟩
        · rw [hsplit, hgs, append_assoc]
        · rw [he, Location.past_append]
termination_by gs.length
decreasing_by exact hlength

end Diagram.Token
