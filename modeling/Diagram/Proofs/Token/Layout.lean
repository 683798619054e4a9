import Diagram.Proofs.Token.Spans

/-!
# Layout

A lexeme is cut again from its own text if a blank follows it, whatever followed it before.  So the
text before, between and behind the tokens of a source may be replaced by any blanks.

Main statement: `scan_relaid`.
-/

namespace Diagram

open List

open Text

theorem Text.Glyph.char_first_of_isContinuation {a : UInt8} (h : isContinuation a)
    (rest : List UInt8) : (first a rest).char = replacement := by
  simp only [isContinuation, Bool.and_eq_true, decide_eq_true_eq] at h
  have hone : width a rest = 1 := by
    have hfour : ∀ b, leadsFour a b = false := by
      simp only [leadsFour, Bool.and_eq_false_iff, decide_eq_false_iff_not]
      grind
    have hthree : ∀ b, leadsThree a b = false := by
      simp only [leadsThree, Bool.and_eq_false_iff, decide_eq_false_iff_not]
      grind
    have htwo : leadsTwo a = false := by
      simp only [leadsTwo, Bool.and_eq_false_iff, decide_eq_false_iff_not]
      grind
    unfold width
    split <;> simp [hfour, hthree, htwo]
  simp only [first, hone, take_succ_cons, take_zero, charOf]
  rw [if_neg (by grind)]

namespace Token

/-- At least one blank, and nothing else. -/
def BlankRun (bytes : List UInt8) : Prop :=
  bytes ≠ [] ∧ ∀ g ∈ Glyph.decode bytes, isBlank g.char = true

variable {bytes source : List UInt8} {g b : Glyph} {tail gs rest : List Glyph} {cs : List Char}
  {segments : List Segment} {texts : List (Lexeme × List UInt8 × List UInt8)}

theorem BlankRun.decode_ne_nil (h : BlankRun bytes) : Glyph.decode bytes ≠ [] := by
  obtain ⟨a, rest, rfl⟩ := exists_cons_of_ne_nil h.1
  simp [Glyph.decode_cons]

def slice (source : List UInt8) (t : Token) : List UInt8 :=
  (source.take t.stop.index).drop t.start.index

/-- The tokens of a source, each with its own text and with another text behind it. -/
def relaid (source : List UInt8) (pairs : List (Token × List UInt8)) : List UInt8 :=
  pairs.flatMap fun p => slice source p.1 ++ p.2

/-- The text of a lexeme gives the lexeme wherever a blank follows. -/
def Recuts (lexeme : Lexeme) (text : List Glyph) : Prop :=
  ∃ g tail, text = g :: tail ∧ isGraphic g.char = true ∧
    ∀ b rest, isBlank b.char = true → ∃ segments, Cut g (tail ++ b :: rest) segments ∧
      segments.flatMap Segment.text = text ∧ segments.filterMap Segment.lexeme? = [lexeme]

section Blanks

variable {b : Glyph} (hb : isBlank b.char = true)

include hb

theorem char_ne_of_isBlank {c : Char} (hc : isBlank c = false) : b.char ≠ c := by
  rintro rfl
  rw [hb] at hc
  cases hc

theorem isWord_of_isBlank : isWord b.char = false := by
  rw [Bool.eq_false_iff]
  intro hword
  have hrange := toNat_of_isBlank hb
  simp only [isWord, Bool.or_eq_true] at hword
  rcases hword with hstart | hdigit
  · have := toNat_of_isWordStart hstart
    omega
  · have := toNat_of_isDigit hdigit
    omega

theorem numberRun_of_isBlank (rest : List Glyph) : numberRun (b :: rest) = [] := by
  have hdigit : b.char.isDigit = false := by
    have hword := isWord_of_isBlank hb
    simp only [isWord, Bool.or_eq_false_iff] at hword
    exact hword.2
  have hdot := char_ne_of_isBlank hb (show isBlank '.' = false by decide)
  have hseparator : isSeparator b.char = false := by
    simp [isSeparator, char_ne_of_isBlank hb (show isBlank '_' = false by decide),
      char_ne_of_isBlank hb (show isBlank '\'' = false by decide)]
  have hmark : isRealMark b.char = false := by
    simp [isRealMark, hdot, char_ne_of_isBlank hb (show isBlank 'e' = false by decide),
      char_ne_of_isBlank hb (show isBlank 'E' = false by decide)]
  simp [numberRun, hdot, hdigit, hseparator, hmark]

theorem rangeRun_of_isBlank (rest : List Glyph) : rangeRun (b :: rest) = none := by
  have hdot := char_ne_of_isBlank hb (show isBlank '.' = false by decide)
  unfold rangeRun
  split <;> simp_all

theorem numberRun_append {first gs : List Glyph} (h : first <+: numberRun gs)
    (rest : List Glyph) : numberRun (first ++ b :: rest) = first := by
  induction first generalizing gs with
  | nil => exact numberRun_of_isBlank hb rest
  | cons g first ih =>
    cases gs with
    | nil => simp [numberRun] at h
    | cons g' gs =>
      unfold numberRun at h
      split at h
      · simp at h
      split at h
      case isFalse => simp at h
      case isTrue hrange hnumber =>
        obtain ⟨rfl, hfirst⟩ := cons_prefix_cons.1 h
        have hhead : ¬(g.char = '.' ∧ ((first ++ b :: rest).head?.map Glyph.char) = some '.') := by
          rintro ⟨hg, hnext⟩
          refine hrange ⟨hg, ?_⟩
          cases first with
          | nil =>
            have hdot := char_ne_of_isBlank hb (show isBlank '.' = false by decide)
            simp at hnext
            exact absurd hnext hdot
          | cons f first =>
            obtain ⟨more, hmore⟩ := hfirst.trans (numberRun_isPrefix gs)
            rw [← hmore]
            simpa using hnext
        rw [cons_append, numberRun, if_neg hhead, if_pos hnumber, ih hfirst]

end Blanks

theorem isGraphic_of_toNat {c : Char} (h : 0x20 < c.toNat ∧ c.toNat < 0x7f) : isGraphic c := by
  simp only [isGraphic, Bool.and_eq_true, decide_eq_true_eq, Char.lt_def]
  exact h

theorem recuts_word (h : isWordStart g.char) (rest : List Glyph) :
    Recuts (lexemeOfWord (Glyph.textOf ((g :: rest).takeWhile fun g => isWord g.char)))
      ((g :: rest).takeWhile fun g => isWord g.char) := by
  have hrange := toNat_of_isWordStart h
  have hword : isWord g.char = true := by simp [isWord, h]
  have hcons : (g :: rest).takeWhile (fun g => isWord g.char) =
      g :: rest.takeWhile fun g => isWord g.char := by simp [hword]
  refine ⟨g, _, hcons, isGraphic_of_toNat (by omega), fun b more hb => ?_⟩
  have hall : ∀ x ∈ (g :: rest).takeWhile (fun g => isWord g.char), isWord x.char = true :=
    fun x hx => mem_takeWhile_imp (p := fun g : Glyph => isWord g.char) hx
  have hsame : (g :: (rest.takeWhile (fun g => isWord g.char) ++ b :: more)).takeWhile
      (fun g => isWord g.char) = (g :: rest).takeWhile fun g => isWord g.char := by
    rw [← cons_append, ← hcons, takeWhile_append_of_pos hall]
    simp [isWord_of_isBlank hb]
  refine ⟨_, .word h, ?_, ?_⟩
  · simp only [wordSegment, hsame, flatMap_cons, flatMap_nil, append_nil]
  · simp [wordSegment, hsame]

/-- The first glyphs of a number are read as a number before a blank. -/
theorem recuts_number {lexeme : Lexeme} (hdigit : g.char.isDigit)
    (hrun : g :: tail <+: numberRun gs)
    (hread : lexemeOfNumber (significant (g :: tail)) = .ok lexeme) :
    Recuts lexeme (g :: tail) := by
  have hrange := toNat_of_isDigit hdigit
  refine ⟨g, tail, rfl, isGraphic_of_toNat (by omega), fun b rest hb => ?_⟩
  have hsame : numberRun (g :: (tail ++ b :: rest)) = g :: tail := numberRun_append hb hrun rest
  have hbehind : rangeRun ((g :: (tail ++ b :: rest)).drop (g :: tail).length) = none := by
    rw [← cons_append, drop_left]
    exact rangeRun_of_isBlank hb rest
  refine ⟨_, .number hdigit hsame hbehind hread, ?_, by simp⟩
  simp [bodyOf_append_trailOf]

theorem significant_bodyOf (run : List Glyph) : significant (bodyOf run) = significant run := by
  have htrail : significant (trailOf run) = [] := by
    unfold significant trailOf
    rw [filter_eq_nil_iff]
    intro c hc
    obtain ⟨g, hg, rfl⟩ := mem_map.1 hc
    have hseparator := mem_rtakeWhile_imp (p := fun g : Glyph => isSeparator g.char) hg
    simp [hseparator]
  conv => rhs; rw [← bodyOf_append_trailOf run]
  unfold significant at htrail ⊢
  rw [map_append, filter_append, htrail, append_nil]

theorem lexemeOfNumber_of_readInteger? {i : Int64} (h : Decimal.readInteger? cs = some i) :
    lexemeOfNumber cs = .ok (.int i) := by
  have hdigits : cs.all Char.isDigit = true := by
    unfold Decimal.readInteger? at h
    split at h
    case isTrue hcs => exact hcs.2
    case isFalse => cases h
  have hmarks : cs.any isRealMark = false := by
    rw [any_eq_false]
    intro c hc hmark
    have hrange := toNat_of_isDigit (all_eq_true.1 hdigits c hc)
    simp only [isRealMark, Bool.or_eq_true, beq_iff_eq] at hmark
    rcases hmark with (rfl | rfl) | rfl <;> exact absurd hrange (by decide)
  simp [lexemeOfNumber, hmarks, h]

theorem stringBody_append {escaped : Bool} (h : stringBody escaped gs = some (cs, tail))
    (more : List Glyph) : stringBody escaped (tail ++ more) = some (cs, tail) := by
  induction gs generalizing escaped cs tail with
  | nil => cases escaped <;> cases h
  | cons g rest ih =>
    rcases stringBody_cons escaped g with ⟨-, hend⟩ | ⟨e, f, hmore⟩
    · rw [hend] at h
      cases h
      exact hend more
    · rw [hmore] at h
      obtain ⟨⟨ds, inner⟩, hinner, heq⟩ := Option.map_eq_some_iff.1 h
      cases heq
      rw [cons_append, hmore, ih hinner]
      rfl

theorem isGraphic_of_mem_spelling (s : Symbol) : ∀ c ∈ s.spelling.toList, isGraphic c := by
  have hall : s.spelling.toList.all isGraphic = true := by cases s <;> rfl
  exact all_eq_true.1 hall

theorem ofSpelling?_push_of_isBlank (hb : isBlank b.char) (raw : String) :
    Symbol.ofSpelling? (raw.push b.char) = none := by
  rw [Symbol.ofSpelling?, find?_eq_none]
  intro s _ hs
  have hspelling : s.spelling = raw.push b.char := by simpa using hs
  have hgraphic := isGraphic_of_mem_spelling s b.char (by simp [hspelling])
  have := toNat_of_isGraphic hgraphic
  have := toNat_of_isBlank hb
  omega

theorem symbolTail_append (hb : isBlank b.char) (raw : String) (gs rest : List Glyph) :
    symbolTail raw (symbolTail raw gs ++ b :: rest) = symbolTail raw gs := by
  have hstop : ∀ raw, symbolTail raw (b :: rest) = [] := by
    simp [symbolTail, ofSpelling?_push_of_isBlank hb]
  induction gs generalizing raw with
  | nil => simp [symbolTail, hstop]
  | cons g gs ih =>
    by_cases hmore : (Symbol.ofSpelling? (raw.push g.char)).isSome = true
    · simp [symbolTail, hmore, ih]
    · simp [symbolTail, hmore, hstop]

theorem recuts_symbol {s : Symbol} (hstart : isWordStart g.char = false)
    (hdigit : g.char.isDigit = false) (hquote : g.char ≠ '"') (hgraphic : isGraphic g.char)
    (hcomment : g.char = '/' → commentRun g rest = none)
    (htail : symbolTail (String.singleton g.char) rest = tail)
    (hspelling : Symbol.ofSpelling? (Glyph.textOf (g :: tail)) = some s) :
    Recuts (.symbol s) (g :: tail) := by
  refine ⟨g, tail, rfl, hgraphic, fun b more hb => ?_⟩
  -- A slash that opens no comment opens none before a blank either.
  have hcomment' : g.char = '/' → commentRun g (tail ++ b :: more) = none := by
    intro hslash
    have hrest := hcomment hslash
    have hslashes := char_ne_of_isBlank hb (show isBlank '/' = false by decide)
    have hstars := char_ne_of_isBlank hb (show isBlank '*' = false by decide)
    cases tail with
    | nil => simp [commentRun, hslashes, hstars]
    | cons next tail =>
      obtain ⟨far, hfar⟩ := htail ▸ symbolTail_isPrefix (String.singleton g.char) rest
      rw [← hfar] at hrest
      simp only [List.cons_append, commentRun] at hrest ⊢
      split at hrest
      · cases hrest
      · rename_i hnext
        split at hrest
        · cases hrest
        · rename_i hnext'
          rw [if_neg hnext, if_neg hnext']
  have htail' : symbolTail (String.singleton g.char) (tail ++ b :: more) = tail := by
    rw [← htail]
    exact symbolTail_append hb _ _ _
  exact ⟨_, .symbol hstart hdigit hquote hgraphic hcomment' htail' hspelling, by simp, by simp⟩

/-- A range symbol that was cut behind a number is cut alone as well. -/
theorem recuts_range {dots : List Glyph} {symbol : Symbol} (h : rangeRun gs = some (symbol, dots)) :
    Recuts (.symbol symbol) dots := by
  have hsymbol : ∀ {g : Glyph} {tail : List Glyph} {s : Symbol}, g.char = '.' →
      symbolTail "." tail = tail → Symbol.ofSpelling? (Glyph.textOf (g :: tail)) = some s →
        Recuts (.symbol s) (g :: tail) := by
    intro g tail s hg htail hspelling
    have hcomment : g.char = '/' → commentRun g tail = none := by
      rw [hg]
      exact fun hslash => absurd hslash (by decide)
    refine recuts_symbol ?_ ?_ ?_ ?_ hcomment ?_ hspelling
    · rw [hg]; decide
    · rw [hg]; decide
    · rw [hg]; decide
    · rw [hg]; decide
    · rw [hg]; exact htail
  unfold rangeRun at h
  split at h
  · split at h
    case isTrue hdots =>
      split at h
      case isTrue hequal =>
        cases h
        refine hsymbol hdots.1 ?_ ?_
        · have htwo : (Symbol.ofSpelling? ("." |>.push '.')).isSome = true := by decide
          have hthree : (Symbol.ofSpelling? (("." |>.push '.') |>.push '=')).isSome = true := by
            decide
          simp only [symbolTail, hdots.2, hequal, htwo, hthree, if_true]
        · simp only [Glyph.textOf, List.map_cons, List.map_nil, hdots.1, hdots.2, hequal]
          decide
      case isFalse =>
        cases h
        refine hsymbol hdots.1 ?_ ?_
        · have htwo : (Symbol.ofSpelling? ("." |>.push '.')).isSome = true := by decide
          simp only [symbolTail, hdots.2, htwo, if_true]
        · simp only [Glyph.textOf, List.map_cons, List.map_nil, hdots.1, hdots.2]
          decide
    case isFalse => cases h
  · split at h
    case isTrue hdots =>
      cases h
      refine hsymbol hdots.1 ?_ ?_
      · have htwo : (Symbol.ofSpelling? ("." |>.push '.')).isSome = true := by decide
        simp only [symbolTail, hdots.2, htwo, if_true]
      · simp only [Glyph.textOf, map_cons, map_nil, hdots.1, hdots.2]
        decide
    case isFalse => cases h
  · cases h

/-- Whatever is cut as a lexeme is cut again from its own text before a blank. -/
theorem Cut.recuts (h : Cut g rest segments) : ∀ s ∈ segments, ∀ lexeme, s.lexeme? = some lexeme →
      Recuts lexeme s.text := by
  intro s hs lexeme hlexeme
  cases h with
  | blank | comment => simp_all
  | word hstart =>
    simp only [mem_singleton] at hs
    subst hs
    cases hlexeme
    exact recuts_word hstart rest
  | @range run dots symbol i hdigit hrun hrange hread =>
    simp only [mem_cons, not_mem_nil, or_false] at hs
    rcases hs with rfl | rfl
    · cases hlexeme
      have hcons := numberRun_of_isDigit hdigit rest
      rw [hrun] at hcons
      subst hcons
      have hinitial : g :: numberRun rest <+: numberRun (g :: rest) := hrun ▸ prefix_rfl
      exact recuts_number hdigit hinitial (lexemeOfNumber_of_readInteger? hread)
    · cases hlexeme
      exact recuts_range hrange
  | @number run lexeme' hdigit hrun hrange hread =>
    simp only [mem_cons, not_mem_nil, or_false] at hs
    rcases hs with rfl | rfl
    · cases hlexeme
      have hinitial : bodyOf run <+: numberRun (g :: rest) := ⟨trailOf run, by
        rw [bodyOf_append_trailOf, hrun]⟩
      have hne : bodyOf run ≠ [] := hrun ▸ bodyOf_ne_nil hdigit rest
      obtain ⟨g', tail, hbody⟩ := exists_cons_of_ne_nil hne
      rw [hbody] at hinitial ⊢
      have hg : g' = g := by
        rw [numberRun_of_isDigit hdigit] at hinitial
        exact (cons_prefix_cons.1 hinitial).1
      subst hg
      refine recuts_number hdigit hinitial ?_
      rw [← hbody, significant_bodyOf, hread]
    · cases hlexeme
  | string hquote hbody =>
    simp only [mem_singleton] at hs
    subst hs
    cases hlexeme
    refine ⟨g, _, rfl, by rw [hquote]; decide, fun b more hb => ?_⟩
    exact ⟨_, .string hquote (stringBody_append hbody _), by simp, by simp⟩
  | symbol hstart hdigit hquote hgraphic hcomment htail hspelling =>
    simp only [mem_singleton] at hs
    subst hs
    cases hlexeme
    exact recuts_symbol hstart hdigit hquote hgraphic hcomment htail hspelling

theorem Cuts.recuts {gs : List Glyph} {segments : List Segment} (h : Cuts gs segments) :
    ∀ s ∈ segments, ∀ lexeme, s.lexeme? = some lexeme → Recuts lexeme s.text := by
  induction h with
  | nil => simp
  | cons hcut _ _ ih =>
    intro s hs
    rcases mem_append.1 hs with hs | hs
    · exact hcut.recuts s hs
    · exact ih s hs

theorem map_lexeme_place (l : Location) (segments : List Segment) :
    (place l segments).map Token.lexeme = segments.filterMap Segment.lexeme? := by
  induction segments generalizing l with
  | nil => rfl
  | cons s rest ih =>
    obtain ⟨lexeme?, text⟩ := s
    cases lexeme? <;> simp [place, ih]

/-- Blanks before a source are gaps of their own. -/
theorem cuts_blanks {blanks more : List Glyph} (hblanks : ∀ g ∈ blanks, isBlank g.char)
    (h : Cuts more segments) :
    ∃ others, Cuts (blanks ++ more) others ∧
      others.filterMap Segment.lexeme? = segments.filterMap Segment.lexeme? := by
  induction blanks with
  | nil => exact ⟨segments, h, rfl⟩
  | cons g blanks ih =>
    obtain ⟨hg, hrest⟩ := forall_mem_cons.1 hblanks
    obtain ⟨others, hcuts, hlexemes⟩ := ih hrest
    exact ⟨_, .cons (.blank hg) rfl hcuts, by simpa using hlexemes⟩

theorem cuts_of_recuts {texts : List (Lexeme × List Glyph × List Glyph)}
    (h : ∀ p ∈ texts, Recuts p.1 p.2.1 ∧ p.2.2 ≠ [] ∧ ∀ g ∈ p.2.2, isBlank g.char) :
    ∃ segments, Cuts (texts.flatMap fun p => p.2.1 ++ p.2.2) segments ∧
      segments.filterMap Segment.lexeme? = texts.map Prod.fst := by
  induction texts with
  | nil => exact ⟨[], .nil, rfl⟩
  | cons p texts ih =>
    obtain ⟨lexeme, text, blanks⟩ := p
    obtain ⟨⟨hrecuts, hne, hblanks⟩, hrest⟩ := forall_mem_cons.1 h
    obtain ⟨segments, hcuts, hlexemes⟩ := ih hrest
    obtain ⟨others, hothers, hsame⟩ := cuts_blanks hblanks hcuts
    obtain ⟨g, tail, rfl, -, hcut⟩ := hrecuts
    obtain ⟨b, blanks, rfl⟩ := exists_cons_of_ne_nil hne
    obtain ⟨first, hfirst, htext, hone⟩ := hcut b
      (blanks ++ texts.flatMap fun p => p.2.1 ++ p.2.2) (hblanks b mem_cons_self)
    refine ⟨first ++ others, ?_, ?_⟩
    · have hall := Cuts.cons hfirst (by rw [htext]; rfl) hothers
      simpa using hall
    · rw [filterMap_append, hone, hsame, hlexemes]
      rfl

/-- A source whose first character is no replacement character starts with a glyph. -/
theorem head?_not_continuation (h : ∀ g ∈ (Glyph.decode bytes).head?, g.char ≠ Glyph.replacement) :
    ∀ b ∈ bytes.head?, Glyph.isContinuation b = false := by
  cases bytes with
  | nil => simp
  | cons a rest =>
    intro b hb
    cases hb
    by_contra hcontinuation
    rw [Bool.not_eq_false] at hcontinuation
    exact h _ rfl (Glyph.char_first_of_isContinuation hcontinuation rest)

theorem decode_laid (h : ∀ p ∈ texts, Recuts p.1 (Glyph.decode p.2.1) ∧ BlankRun p.2.2) :
    Glyph.decode (texts.flatMap fun p => p.2.1 ++ p.2.2) =
      texts.flatMap (fun p => Glyph.decode p.2.1 ++ Glyph.decode p.2.2) ∧
    ∀ b ∈ (texts.flatMap fun p => p.2.1 ++ p.2.2).head?, Glyph.isContinuation b = false := by
  induction texts with
  | nil => simp
  | cons p texts ih =>
    obtain ⟨lexeme, text, blanks⟩ := p
    obtain ⟨⟨hrecuts, hne, hblanks⟩, hrest⟩ := forall_mem_cons.1 h
    obtain ⟨hdecode, hhead⟩ := ih hrest
    obtain ⟨g, tail, htext, hgraphic, -⟩ := hrecuts
    have htextHead : ∀ b ∈ text.head?, Glyph.isContinuation b = false := by
      refine head?_not_continuation fun g' hg' => ?_
      rw [htext] at hg'
      cases hg'
      intro hreplaced
      rw [hreplaced] at hgraphic
      exact absurd hgraphic (by decide)
    have hblanksHead : ∀ b ∈ blanks.head?, Glyph.isContinuation b = false := by
      refine head?_not_continuation fun g' hg' hreplaced => ?_
      have hblank := hblanks g' (mem_of_mem_head? hg')
      rw [hreplaced] at hblank
      exact absurd hblank (by decide)
    have htextNe : text ≠ [] := by
      rintro rfl
      simp at htext
    have hbehind : ∀ b ∈ (blanks ++ texts.flatMap fun p => p.2.1 ++ p.2.2).head?,
        Glyph.isContinuation b = false := by
      rw [head?_append_of_ne_nil _ hne]
      exact hblanksHead
    refine ⟨?_, ?_⟩
    · simp only [flatMap_cons, append_assoc]
      rw [Glyph.decode_append _ _ hbehind, Glyph.decode_append _ _ hhead, hdecode]
    · simp only [flatMap_cons, append_assoc]
      rw [head?_append_of_ne_nil _ htextNe]
      exact htextHead

theorem decode_slice {before text behind : List Glyph} {t : Token}
    (h : Glyph.decode source = before ++ (text ++ behind))
    (hstart : t.start = Location.start.past before) (hstop : t.stop = t.start.past text) :
    Glyph.decode (slice source t) = text := by
  unfold slice
  rw [hstop, hstart, ← Location.past_append, Location.index_start_past,
    Location.index_start_past]
  exact decode_between h

theorem recuts_of_scan {tokens : List Token} (h : scan (Glyph.decode source) = .ok tokens) :
    ∀ t ∈ tokens, Recuts t.lexeme (Glyph.decode (slice source t)) := by
  obtain ⟨segments, hcuts, rfl⟩ := scanFrom_eq_ok_iff.1 h
  intro t ht
  obtain ⟨before, s, behind, rfl, hlexeme, hstart, hstop⟩ := mem_place ht
  have hsource : Glyph.decode source = before.flatMap Segment.text ++
      (s.text ++ behind.flatMap Segment.text) := by
    simpa using hcuts.text_eq.symm
  rw [decode_slice hsource hstart hstop]
  exact hcuts.recuts s (by simp) t.lexeme hlexeme

/-- The tokens of a source, with blanks behind each of them, have the same lexemes in any
layout. -/
theorem scan_laid {lead : List UInt8} (hlead : BlankRun lead)
    (h : ∀ p ∈ texts, Recuts p.1 (Glyph.decode p.2.1) ∧ BlankRun p.2.2) :
    ∃ tokens, scan (Glyph.decode (lead ++ texts.flatMap fun p => p.2.1 ++ p.2.2)) = .ok tokens ∧
      tokens.map Token.lexeme = texts.map Prod.fst := by
  obtain ⟨hdecode, hhead⟩ := decode_laid h
  have hglyphs : ∀ p ∈ texts.map fun p => (p.1, Glyph.decode p.2.1, Glyph.decode p.2.2),
      Recuts p.1 p.2.1 ∧ p.2.2 ≠ [] ∧ ∀ g ∈ p.2.2, isBlank g.char = true := by
    intro p hp
    obtain ⟨q, hq, rfl⟩ := mem_map.1 hp
    exact ⟨(h q hq).1, (h q hq).2.decode_ne_nil, (h q hq).2.2⟩
  obtain ⟨segments, hcuts, hlexemes⟩ := cuts_of_recuts hglyphs
  rw [flatMap_map] at hcuts
  obtain ⟨others, hothers, hsame⟩ := cuts_blanks hlead.2 hcuts
  refine ⟨place Location.start others, ?_, ?_⟩
  · rw [Glyph.decode_append _ _ hhead, hdecode]
    exact scanFrom_eq_ok_iff.2 ⟨others, hothers, rfl⟩
  · rw [map_lexeme_place, hsame, hlexemes, map_map]
    rfl

/-- The layout of a source says nothing: with other blanks before, between and behind the tokens
there are the same lexemes. -/
theorem scan_relaid {source lead : List UInt8} {tokens : List Token} {blanks : List (List UInt8)}
    (h : scan (Glyph.decode source) = .ok tokens) (hlead : BlankRun lead)
    (hlength : blanks.length = tokens.length) (hblanks : ∀ b ∈ blanks, BlankRun b) :
    ∃ others, scan (Glyph.decode (lead ++ relaid source (tokens.zip blanks))) = .ok others ∧
      others.map Token.lexeme = tokens.map Token.lexeme := by
  have hlaid : ∀ p ∈ (tokens.zip blanks).map fun p => (p.1.lexeme, slice source p.1, p.2),
      Recuts p.1 (Glyph.decode p.2.1) ∧ BlankRun p.2.2 := by
    intro p hp
    obtain ⟨⟨t, b⟩, hmem, rfl⟩ := mem_map.1 hp
    exact ⟨recuts_of_scan h t (of_mem_zip hmem).1, hblanks b (of_mem_zip hmem).2⟩
  obtain ⟨others, hscan, hlexemes⟩ := scan_laid hlead hlaid
  refine ⟨others, ?_, ?_⟩
  · rw [flatMap_map] at hscan
    exact hscan
  · have hfst : (tokens.zip blanks).map Prod.fst = tokens :=
      map_fst_zip (by omega)
    rw [hlexemes, map_map, ← congrArg (List.map Token.lexeme) hfst, map_map]
    rfl

/-- The bytes of `1_..x/**/!=y`, laid out with tabs, blanks and line feeds. -/
theorem scan_relaid_range :
    let source : List UInt8 := [0x31, 0x5f, 0x2e, 0x2e, 0x78, 0x2f, 0x2a, 0x2a, 0x2f, 0x21, 0x3d,
      0x79]
    ∃ tokens, scan (Glyph.decode source) = .ok tokens ∧ tokens.length = 5 ∧
      ∃ others, scan (Glyph.decode ([0x09] ++ relaid source (tokens.zip
        [[0x20], [0x0a], [0x09, 0x20], [0x0d, 0x0a], [0x20]]))) = .ok others ∧
        others.map Token.lexeme = tokens.map Token.lexeme := by
  intro source
  have hscan : ∃ tokens, scan (Glyph.decode source) = .ok tokens ∧ tokens.length = 5 :=
    ⟨_, rfl, rfl⟩
  obtain ⟨tokens, htokens, hlength⟩ := hscan
  refine ⟨tokens, htokens, hlength, ?_⟩
  refine scan_relaid htokens ?_ (by rw [hlength]; rfl) ?_
  · exact ⟨by decide, by decide⟩
  · simp only [forall_mem_cons]
    refine ⟨⟨by decide, by decide⟩, ⟨by decide, by decide⟩, ⟨by decide, by decide⟩,
      ⟨by decide, by decide⟩, ⟨by decide, by decide⟩, by simp⟩

end Token

end Diagram
