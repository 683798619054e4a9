import Diagram.Proofs.Source.Marks
import Diagram.Proofs.Token.Cuts

/-!
# The spans of tokens

The tokens of a source stand at locations of the source, one behind the other.  What lies before,
between and behind them is blank or a comment, if the separators are left out that may follow
a number, so a scan loses nothing that says something.

Main statement: `scan_spans`.
-/

namespace Diagram

open List Location

open Text

/-- Only behind a number a separator has no meaning. -/
def Lexeme.isNumber : Lexeme → Bool
  | int _ | real _ => true
  | _ => false

namespace Token

/-- Where the text behind a token starts; without a token that is the start of the source. -/
def endOf (previous : Option Token) : Nat :=
  (previous.map fun t => t.stop.index).getD 0

/-- The stretches of a source behind a token, between some others and behind the last of them.
Each stands beside the token that it follows. -/
def stretches (source : List UInt8) :
    (previous : Option Token) → List Token → List (Option Token × List UInt8)
  | previous, [] => [(previous, source.drop (endOf previous))]
  | previous, t :: ts =>
    (previous, (source.take t.start.index).drop (endOf previous)) :: stretches source (some t) ts

/-- What follows a token, without the separators if that is a number. -/
def bareGap (previous : Option Token) (gap : List Glyph) : List Glyph :=
  if previous.any fun t => t.lexeme.isNumber then gap.dropWhile fun g => isSeparator g.char
  else gap

/-- Blanks and comments. -/
inductive Trivia : List Glyph → Prop
  | nil : Trivia []
  | blank {g rest} (hblank : isBlank g.char = true) (hrest : Trivia rest) : Trivia (g :: rest)
  | comment {g rest text more} (hslash : g.char = '/') (hrun : commentRun g rest = some text)
      (hsplit : g :: rest = text ++ more) (hmore : Trivia more) : Trivia (g :: rest)

variable {gs : List Glyph} {segments : List Segment} {lexeme : Lexeme} {g : Glyph} {t : Token}
  {s : Segment} {n : String} {source : List UInt8}

/-- Nothing but gaps is cut from blanks and comments. -/
theorem Trivia.exists_cuts (h : Trivia gs) :
    ∃ segments, Cuts gs segments ∧ ∀ s ∈ segments, s.lexeme? = none := by
  induction h with
  | nil => exact ⟨[], .nil, by simp⟩
  | blank hblank _ ih =>
    obtain ⟨segments, hcuts, hnone⟩ := ih
    exact ⟨_, .cons (.blank hblank) rfl hcuts, by simpa using hnone⟩
  | comment hslash hrun hsplit _ ih =>
    obtain ⟨segments, hcuts, hnone⟩ := ih
    exact ⟨_, .cons (.comment hslash hrun) (by simpa using hsplit) hcuts, by simpa using hnone⟩

theorem place_eq_nil (h : ∀ s ∈ segments, s.lexeme? = none) (l : Location) :
    place l segments = [] := by
  induction segments generalizing l with
  | nil => rfl
  | cons s rest ih =>
    obtain ⟨hs, hrest⟩ := forall_mem_cons.1 h
    simp [place, hs, ih hrest]

theorem Trivia.scan_eq (h : Trivia gs) : scan gs = .ok [] := by
  obtain ⟨segments, hcuts, hnone⟩ := h.exists_cuts
  have hscan := scanFrom_of_cuts hcuts Location.start
  rwa [place_eq_nil hnone] at hscan

section Comments

variable {gs near far : List Glyph}

/-- A line comment ends where it ends, however much of what follows it is left. -/
theorem lineComment_append {continued : Bool} (h : gs = lineComment continued gs ++ (near ++ far)) :
    lineComment continued (lineComment continued gs ++ near) = lineComment continued gs := by
  induction gs generalizing continued with
  | nil =>
    have hnear : near = [] := by
      cases continued <;> simp_all [lineComment]
    cases continued <;> simp [lineComment, hnear]
  | cons g rest ih =>
    cases continued with
    | true =>
      simp only [lineComment, cons_append, List.cons.injEq, true_and] at h ⊢
      exact ih h
    | false =>
      by_cases hfeed : g.char = '\n'
      · simp [lineComment, hfeed]
      · simp only [lineComment, hfeed, if_false, cons_append, List.cons.injEq, true_and] at h ⊢
        exact ih h

theorem blockComment_append {afterStar : Bool} (h : gs = blockComment afterStar gs ++ (near ++ far)) :
    blockComment afterStar (blockComment afterStar gs ++ near) = blockComment afterStar gs := by
  induction gs generalizing afterStar with
  | nil =>
    have hnear : near = [] := by
      cases afterStar <;> simp_all [blockComment]
    cases afterStar <;> simp [blockComment, hnear]
  | cons g rest ih =>
    by_cases hclose : afterStar = true ∧ g.char = '/'
    · simp [blockComment, hclose]
    · simp only [blockComment, hclose, if_false, cons_append, List.cons.injEq, true_and] at h ⊢
      exact ih h

theorem commentRun_append {g : Glyph} {tail : List Glyph}
    (h : commentRun g (tail ++ (near ++ far)) = some (g :: tail)) :
    commentRun g (tail ++ near) = some (g :: tail) := by
  cases tail with
  | nil =>
    -- A comment has an opening of two characters.
    unfold commentRun at h
    split at h
    · cases h
    · split at h
      · cases h
      · split at h <;> cases h
  | cons next tail =>
    simp only [cons_append, commentRun] at h ⊢
    split at h
    case isTrue hslash =>
      have htail : lineComment false (tail ++ (near ++ far)) = tail := by simpa using h
      have hwhole : tail ++ (near ++ far) =
          lineComment false (tail ++ (near ++ far)) ++ (near ++ far) := by rw [htail]
      have hsame := lineComment_append hwhole
      rw [htail] at hsame
      rw [if_pos hslash, hsame]
    case isFalse hslash =>
      split at h
      case isTrue hstar =>
        have htail : blockComment false (tail ++ (near ++ far)) = tail := by simpa using h
        have hwhole : tail ++ (near ++ far) =
            blockComment false (tail ++ (near ++ far)) ++ (near ++ far) := by rw [htail]
        have hsame := blockComment_append hwhole
        rw [htail] at hsame
        rw [if_neg hslash, if_pos hstar, hsame]
      case isFalse => cases h

end Comments

/-- The text of the gaps before the first lexeme of some segments. -/
def gapOf (segments : List Segment) : List Glyph :=
  (segments.takeWhile fun s => s.lexeme?.isNone).flatMap Segment.text

@[simp] theorem gapOf_gap (text : List Glyph) (segments : List Segment) :
    gapOf (⟨none, text⟩ :: segments) = text ++ gapOf segments := by
  simp [gapOf]

@[simp] theorem gapOf_lexeme (lexeme : Lexeme) (text : List Glyph) (segments : List Segment) :
    gapOf (⟨some lexeme, text⟩ :: segments) = [] := by
  simp [gapOf]

theorem gapOf_isPrefix (segments : List Segment) : gapOf segments <+: segments.flatMap Segment.text := by
  obtain ⟨others, hothers⟩ := takeWhile_prefix (l := segments) fun s => s.lexeme?.isNone
  refine ⟨others.flatMap Segment.text, ?_⟩
  unfold gapOf
  rw [← flatMap_append, hothers]

theorem Cuts.trivia_gapOf (h : Cuts gs segments) : Trivia (gapOf segments) := by
  induction h with
  | nil => exact .nil
  | @cons g rest more segments others hcut hsplit hmore ih =>
    cases hcut with
    | blank hblank => simpa using Trivia.blank hblank ih
    | comment hslash hrun =>
      obtain ⟨tail, rfl, -⟩ := commentRun_isPrefix hrun
      obtain ⟨far, hfar⟩ := gapOf_isPrefix others
      have hrest : rest = tail ++ (gapOf others ++ far) := by
        rw [hfar, hmore.text_eq]
        simpa using hsplit
      have hshort := commentRun_append (hrest ▸ hrun)
      simpa using Trivia.comment hslash hshort rfl ih
    | word => simpa [wordSegment] using Trivia.nil
    | range | number | string | symbol => simpa using Trivia.nil

/-- Every lexeme of some segments has a text, and what follows it up to the next lexeme is blank
or a comment, without the separators behind a number. -/
def Spaced : List Segment → Prop
  | [] => True
  | s :: rest =>
    (∀ lexeme, s.lexeme? = some lexeme → s.text ≠ [] ∧
      Trivia (if lexeme.isNumber then (gapOf rest).dropWhile fun g => isSeparator g.char
        else gapOf rest)) ∧ Spaced rest

theorem Trivia.dropWhile_eq (h : Trivia gs) : gs.dropWhile (fun g => isSeparator g.char) = gs := by
  have hhead : ∀ {g : Glyph} {rest : List Glyph}, isSeparator g.char = false →
      (g :: rest).dropWhile (fun g => isSeparator g.char) = g :: rest := by
    intro g rest hg
    simp [hg]
  cases h with
  | nil => rfl
  | @blank g rest hblank =>
    refine hhead ?_
    by_contra hseparator
    simp only [isSeparator, Bool.not_eq_false, Bool.or_eq_true, beq_iff_eq] at hseparator
    rcases hseparator with hchar | hchar
    · rw [hchar] at hblank
      exact absurd hblank (by decide)
    · rw [hchar] at hblank
      exact absurd hblank (by decide)
  | comment hslash => exact hhead (by rw [hslash]; decide)

theorem isNumber_of_lexemeOfNumber {cs : List Char} (h : lexemeOfNumber cs = .ok lexeme) :
    lexeme.isNumber := by
  unfold lexemeOfNumber at h
  split at h
  · split at h <;> cases h
    rfl
  · split at h <;> cases h
    rfl

theorem isNumber_lexemeOfWord (s : String) : (lexemeOfWord s).isNumber = false := by
  unfold lexemeOfWord
  split
  · rfl
  · split
    · rfl
    · split <;> rfl

theorem bodyOf_ne_nil (h : g.char.isDigit) (rest : List Glyph) :
    bodyOf (numberRun (g :: rest)) ≠ [] := by
  rw [numberRun_of_isDigit h]
  intro hnil
  have hall := rdropWhile_eq_nil_iff.1 hnil g mem_cons_self
  have hrange := toNat_of_isDigit h
  simp only [isSeparator, Bool.or_eq_true, beq_iff_eq] at hall
  rcases hall with hchar | hchar
  · rw [hchar] at hrange
    exact absurd hrange (by decide)
  · rw [hchar] at hrange
    exact absurd hrange (by decide)

/-- Separators before blanks and comments are dropped, and nothing else. -/
theorem dropWhile_trailOf_append (run : List Glyph) (h : Trivia gs) :
    (trailOf run ++ gs).dropWhile (fun g => isSeparator g.char) = gs := by
  have hall : ∀ g ∈ trailOf run, isSeparator g.char = true := by
    intro g hg
    exact mem_rtakeWhile_imp (p := fun g : Glyph => isSeparator g.char) hg
  rw [dropWhile_append_of_pos hall, h.dropWhile_eq]

theorem rangeRun_ne_nil {dots : List Glyph} {symbol : Symbol}
    (h : rangeRun gs = some (symbol, dots)) : dots ≠ [] := by
  unfold rangeRun at h
  split at h
  · split at h
    · split at h <;> cases h <;> simp
    · cases h
  · split at h <;> cases h
    simp
  · cases h

theorem Cuts.spaced (h : Cuts gs segments) : Spaced segments := by
  induction h with
  | nil => trivial
  | @cons g rest more segments others hcut hsplit hmore ih =>
    have hgap := hmore.trivia_gapOf
    cases hcut with
    | blank | comment => exact ⟨by simp, ih⟩
    | word hstart =>
      have hword : isWord g.char = true := by simp [isWord, hstart]
      refine ⟨?_, ih⟩
      simpa [wordSegment, isNumber_lexemeOfWord, hword] using hgap
    | range hdigit hrun hrange =>
      refine ⟨?_, ?_, ih⟩
      · rw [numberRun_of_isDigit hdigit] at hrun
        simp [← hrun, Trivia.nil]
      · simpa [Lexeme.isNumber, rangeRun_ne_nil hrange] using hgap
    | number hdigit hrun _ hread =>
      refine ⟨?_, by simp, ih⟩
      subst hrun
      simpa [isNumber_of_lexemeOfNumber hread, bodyOf_ne_nil hdigit,
        dropWhile_trailOf_append _ hgap] using hgap
    | string | symbol => exact ⟨by simpa [Lexeme.isNumber] using hgap, ih⟩

theorem mem_place {l : Location} (h : t ∈ place l segments) :
    ∃ before s behind, segments = before ++ s :: behind ∧ s.lexeme? = some t.lexeme ∧
      t.start = l.past (before.flatMap Segment.text) ∧ t.stop = t.start.past s.text := by
  induction segments generalizing l with
  | nil => cases h
  | cons s rest ih =>
    obtain ⟨lexeme?, text⟩ := s
    have htail : t ∈ place (l.past text) rest → ∃ before s behind,
        (⟨lexeme?, text⟩ : Segment) :: rest = before ++ s :: behind ∧
          s.lexeme? = some t.lexeme ∧ t.start = l.past (before.flatMap Segment.text) ∧
            t.stop = t.start.past s.text := by
      intro ht
      obtain ⟨before, s, behind, rfl, hlexeme, hstart, hstop⟩ := ih ht
      refine ⟨⟨lexeme?, text⟩ :: before, s, behind, rfl, hlexeme, ?_, hstop⟩
      simpa [past_append] using hstart
    cases lexeme? with
    | none => exact htail h
    | some lexeme =>
      rcases mem_cons.1 h with rfl | ht
      · exact ⟨[], _, rest, rfl, rfl, rfl, rfl⟩
      · exact htail ht

theorem eq_of_lexemeOfWord {s : String} (h : lexemeOfWord s = .name n) : n = s := by
  unfold lexemeOfWord at h
  split at h
  · cases h
  · split at h
    · cases h
    · split at h <;> cases h
      rfl

theorem Cut.isWord_of_name {rest : List Glyph} (h : Cut g rest segments) (hs : s ∈ segments)
    (hn : s.lexeme? = some (.name n)) : ∀ c ∈ n.toList, isWord c := by
  cases h with
  | word hstart =>
    obtain rfl := mem_singleton.1 hs
    obtain rfl := eq_of_lexemeOfWord (Option.some.inj hn)
    intro c hc
    rw [Glyph.textOf, String.toList_ofList] at hc
    obtain ⟨g', hg', rfl⟩ := mem_map.1 hc
    exact mem_takeWhile_imp (p := fun g : Glyph => isWord g.char) hg'
  | number _ _ _ hread =>
    have hnumber := isNumber_of_lexemeOfNumber hread
    rcases mem_pair.1 hs with rfl | rfl
    · cases hn
      cases hnumber
    · cases hn
  | blank | comment | range | string | symbol => grind

theorem isWord_of_scan {source : List Glyph} {tokens : List Token} (h : scan source = .ok tokens)
    (ht : t ∈ tokens) (hn : t.lexeme = .name n) : ∀ c ∈ n.toList, isWord c := by
  obtain ⟨segments, hcuts, rfl⟩ := scanFrom_eq_ok_iff.1 h
  obtain ⟨before, s, behind, hsegments, hlexeme, -⟩ := mem_place ht
  have hs : s ∈ segments := by simp [hsegments]
  rw [hn] at hlexeme
  clear ht hsegments h
  induction hcuts with
  | nil => cases hs
  | cons hcut _ _ ih =>
    rcases mem_append.1 hs with hs | hs
    · exact hcut.isWord_of_name hs hlexeme
    · exact ih hs

theorem bytes_ne_nil {source : List UInt8} {g : Glyph} (h : g ∈ Glyph.decode source) :
    g.bytes ≠ [] := by
  match source with
  | [] => simp at h
  | a :: rest =>
    rw [Glyph.decode_cons] at h
    rcases mem_cons.1 h with rfl | hmem
    · simp [Glyph.first_bytes]
    · exact bytes_ne_nil hmem
termination_by source.length
decreasing_by simp only [length_drop, length_cons]; omega

/-- The location behind some glyphs of a source is farther than the one before them. -/
theorem index_lt_past {text : List Glyph} (l : Location) (htext : text ≠ [])
    (h : ∀ g ∈ text, g.bytes ≠ []) : l.index < (l.past text).index := by
  obtain ⟨g, rest, rfl⟩ := exists_cons_of_ne_nil htext
  have hbytes := length_pos_of_ne_nil (h g mem_cons_self)
  rw [index_past, Glyph.bytesOf_cons, length_append]
  omega

/-- Tokens start where the tokens before them stop, or later. -/
theorem place_ordered (l : Location) (segments : List Segment) :
    (∀ t ∈ place l segments, l.index ≤ t.start.index) ∧
      (place l segments).Pairwise fun t u => t.stop.index ≤ u.start.index := by
  induction segments generalizing l with
  | nil => exact ⟨by simp [place], by simp [place]⟩
  | cons s rest ih =>
    obtain ⟨lexeme?, text⟩ := s
    obtain ⟨hfirst, hpairs⟩ := ih (l.past text)
    have hle : l.index ≤ (l.past text).index := by
      rw [index_past]
      omega
    cases lexeme? with
    | none => exact ⟨fun t ht => hle.trans (hfirst t ht), hpairs⟩
    | some lexeme =>
      refine ⟨?_, pairwise_cons.2 ⟨hfirst, hpairs⟩⟩
      intro t ht
      rcases mem_cons.1 ht with rfl | ht
      · exact Nat.le_refl _
      · exact hle.trans (hfirst t ht)

theorem Spaced.text_ne_nil {before behind : List Segment} (h : Spaced (before ++ s :: behind))
    (hs : s.lexeme? = some lexeme) : s.text ≠ [] := by
  induction before with
  | nil => exact (h.1 lexeme hs).1
  | cons _ _ ih => exact ih h.2

theorem decode_between {before inside behind : List Glyph}
    (h : Glyph.decode source = before ++ (inside ++ behind)) :
    Glyph.decode ((source.take (Glyph.bytesOf (before ++ inside)).length).drop
      (Glyph.bytesOf before).length) = inside := by
  have htake := Glyph.take_eq_bytesOf (h.trans (append_assoc _ _ _).symm)
  rw [htake, Glyph.bytesOf_append, drop_left]
  exact Glyph.decode_bytesOf_inside h

/-- Each stretch is blank or a comment.  The induction is on the segments: `passed` is the part of
the current stretch that lies behind the last token and before them. -/
theorem trivia_of_mem_stretches (hspaced : Spaced segments) (previous : Option Token)
    (before passed : List Glyph)
    (hsource : Glyph.decode source = before ++ (passed ++ segments.flatMap Segment.text))
    (hend : endOf previous = (Glyph.bytesOf before).length)
    (htrivia : Trivia (bareGap previous (passed ++ gapOf segments))) {p : Option Token × List UInt8}
    (hp : p ∈ stretches source previous (place (Location.start.past (before ++ passed)) segments)) :
    Trivia (bareGap p.1 (Glyph.decode p.2)) := by
  induction segments generalizing previous before passed with
  | nil =>
    simp only [place, stretches, mem_singleton] at hp
    subst hp
    have hrest : Glyph.decode (source.drop (endOf previous)) = passed := by
      rw [hend]
      exact Glyph.decode_drop (by simpa using hsource)
    simpa [hrest, gapOf] using htrivia
  | cons s rest ih =>
    obtain ⟨lexeme?, text⟩ := s
    obtain ⟨hfirst, hrest⟩ := hspaced
    cases lexeme? with
    | none =>
      refine ih hrest previous before (passed ++ text) ?_ hend ?_ ?_
      · simpa using hsource
      · simpa using htrivia
      · simpa [place, past_append] using hp
    | some lexeme =>
      simp only [place, stretches, mem_cons] at hp
      rcases hp with rfl | hp
      · have hgap : Glyph.decode ((source.take
            (Location.start.past (before ++ passed)).index).drop (endOf previous)) = passed := by
          rw [index_start_past, hend]
          exact decode_between hsource
        simpa [hgap] using htrivia
      · rw [← past_append] at hp
        refine ih hrest _ (before ++ passed ++ text) [] ?_ ?_ ?_ (by rwa [append_nil])
        · simpa using hsource
        · exact index_start_past _
        · simpa [bareGap] using (hfirst lexeme rfl).2

/-- The tokens of a source stand in order at locations of the source, and what lies before,
between and behind them, without the separators behind a number, is blank or a comment and has no
tokens itself. -/
theorem scan_spans {source : List UInt8} {tokens : List Token}
    (h : scan (Glyph.decode source) = .ok tokens) :
    (∀ t ∈ tokens, t.start.index < t.stop.index ∧ t.start.Marks source ∧ t.stop.Marks source) ∧
    tokens.Pairwise (fun t u => t.stop.index ≤ u.start.index) ∧
    ∀ p ∈ stretches source none tokens, Trivia (bareGap p.1 (Glyph.decode p.2)) ∧
      scan (bareGap p.1 (Glyph.decode p.2)) = .ok [] := by
  obtain ⟨segments, hcuts, rfl⟩ := scanFrom_eq_ok_iff.1 h
  have hspaced := hcuts.spaced
  refine ⟨?_, (place_ordered _ _).2, ?_⟩
  · intro t ht
    obtain ⟨before, s, behind, rfl, hlexeme, hstart, hstop⟩ := mem_place ht
    have hsource : Glyph.decode source = before.flatMap Segment.text ++
        (s.text ++ behind.flatMap Segment.text) := by
      simpa using hcuts.text_eq.symm
    have hmarks := marks_past (hsource.trans (append_assoc _ _ _).symm)
    rw [hstop, hstart]
    refine ⟨?_, marks_past hsource, by rwa [← past_append]⟩
    refine index_lt_past _ (hspaced.text_ne_nil hlexeme) fun g hg => ?_
    have hmem : g ∈ Glyph.decode source := by simp [hsource, hg]
    exact bytes_ne_nil hmem
  · intro p hp
    have htrivia : Trivia (bareGap p.1 (Glyph.decode p.2)) := by
      refine trivia_of_mem_stretches hspaced none [] [] ?_ rfl ?_ hp
      · simpa using hcuts.text_eq.symm
      · simpa [bareGap] using hcuts.trivia_gapOf
    exact ⟨htrivia, htrivia.scan_eq⟩

/-- The bytes of `1_0_ ..`, a string of a byte that is no character, a line feed and `x //y`. -/
theorem scan_spans_separated :
    let source : List UInt8 := [0x31, 0x5f, 0x30, 0x5f, 0x20, 0x2e, 0x2e, 0x20, 0x22, 0xff, 0x22,
      0x0a, 0x78, 0x20, 0x2f, 0x2f, 0x79]
    ∃ tokens, scan (Glyph.decode source) = .ok tokens ∧ tokens.length = 4 ∧
      (∀ t ∈ tokens, t.start.index < t.stop.index ∧ t.start.Marks source ∧ t.stop.Marks source) ∧
      tokens.Pairwise (fun t u => t.stop.index ≤ u.start.index) ∧
      ∀ p ∈ stretches source none tokens, Trivia (bareGap p.1 (Glyph.decode p.2)) ∧
        scan (bareGap p.1 (Glyph.decode p.2)) = .ok [] := by
  intro source
  have hscan : ∃ tokens, scan (Glyph.decode source) = .ok tokens ∧ tokens.length = 4 :=
    ⟨_, rfl, rfl⟩
  obtain ⟨tokens, htokens, hlength⟩ := hscan
  exact ⟨tokens, htokens, hlength, scan_spans htokens⟩

end Token

end Diagram
