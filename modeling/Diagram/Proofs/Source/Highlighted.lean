import Diagram.Proofs.Source.Marks
import Diagram.Source.Highlight
import Mathlib.Data.List.DropRight

/-!
# Areas that are underlined

The line of a location is found by counting line feeds, and the carets under it by counting
characters.  Both counts agree with the source as soon as the area starts beside a character that
is neither a blank nor a line end: such a character stands in the line, it is not cut off at its
end, and the indentation of the line stops before it.

Main statements: `Area.points_before`, `Area.points_behind`.
-/

namespace Diagram

open List

open Text

section Lines

theorem linesOf_nil : linesOf [] = [[]] := rfl

theorem linesOf_feed (cs : List Char) : linesOf ('\n' :: cs) = [] :: linesOf cs := rfl

theorem linesOf_ne_nil (cs : List Char) : linesOf cs ≠ [] := by
  cases cs with
  | nil => nofun
  | cons c cs =>
    unfold linesOf
    split
    · simp
    · split <;> simp

variable {cs line : List Char}

theorem linesOf_cons_of_ne {c : Char} (h : c ≠ '\n') {lines : List (List Char)}
    (hlines : linesOf cs = line :: lines) : linesOf (c :: cs) = (c :: line) :: lines := by
  simp [linesOf, h, hlines]

theorem not_mem_of_mem_linesOf (h : line ∈ linesOf cs) : '\n' ∉ line := by
  induction cs generalizing line with
  | nil =>
    rw [linesOf_nil, mem_singleton] at h
    simp [h]
  | cons c cs ih =>
    obtain ⟨first, lines, hlines⟩ := exists_cons_of_ne_nil (linesOf_ne_nil cs)
    by_cases hc : c = '\n'
    · rw [hc] at h
      rcases mem_cons.1 h with rfl | h
      · simp
      · exact ih h
    · rw [linesOf_cons_of_ne hc hlines] at h
      rw [hlines] at ih
      rcases mem_cons.1 h with rfl | h
      · simp [Ne.symm hc, ih mem_cons_self]
      · exact ih (mem_cons_of_mem first h)

theorem linesOf_append_feed (h : '\n' ∉ line) (rest : List Char) :
    linesOf (line ++ '\n' :: rest) = line :: linesOf rest := by
  induction line with
  | nil => rfl
  | cons c line ih =>
    obtain ⟨hc, hline⟩ := not_or.1 (mt mem_cons.2 h)
    exact linesOf_cons_of_ne (Ne.symm hc) (ih hline)

theorem linesOf_append_cons_feed (before behind : List Char) :
    linesOf (before ++ '\n' :: behind) = linesOf before ++ linesOf behind := by
  induction before with
  | nil => rfl
  | cons c before ih =>
    obtain ⟨first, lines, hlines⟩ := exists_cons_of_ne_nil (linesOf_ne_nil before)
    rw [hlines] at ih
    by_cases hc : c = '\n'
    · rw [hc, cons_append, linesOf_feed, linesOf_feed, hlines, ih]
      rfl
    · rw [cons_append, linesOf_cons_of_ne hc ih, linesOf_cons_of_ne hc hlines]
      rfl

theorem length_linesOf (cs : List Char) : (linesOf cs).length = cs.countP (· == '\n') + 1 := by
  induction cs with
  | nil => rfl
  | cons c cs ih =>
    obtain ⟨first, lines, hlines⟩ := exists_cons_of_ne_nil (linesOf_ne_nil cs)
    by_cases hc : c = '\n'
    · rw [hc, linesOf_feed, length_cons, ih]
      simp
    · rw [linesOf_cons_of_ne hc hlines]
      rw [hlines] at ih
      simpa [hc] using ih

theorem getElem?_zero_linesOf (cs : List Char) :
    (linesOf cs)[0]? = some (cs.takeWhile (· != '\n')) := by
  induction cs with
  | nil => rfl
  | cons c cs ih =>
    obtain ⟨first, lines, hlines⟩ := exists_cons_of_ne_nil (linesOf_ne_nil cs)
    by_cases hc : c = '\n'
    · rw [hc]
      rfl
    · rw [linesOf_cons_of_ne hc hlines]
      simp_all

/-- The line at a place of a text is numbered by the line feeds before the place.  It is what
stands behind the last of them, up to the next one. -/
theorem getElem?_linesOf (before behind : List Char) :
    (linesOf (before ++ behind))[before.countP (· == '\n')]? =
      some (before.rtakeWhile (· != '\n') ++ behind.takeWhile (· != '\n')) := by
  have hline : ∀ c ∈ before.rtakeWhile (· != '\n'), (c != '\n') = true :=
    fun c hc => mem_rtakeWhile_imp (p := fun c : Char => c != '\n') hc
  have hsplit : before.rdropWhile (· != '\n') ++ before.rtakeWhile (· != '\n') = before :=
    rdropWhile_append_rtakeWhile
  have hnone : (before.rtakeWhile (· != '\n')).countP (· == '\n') = 0 := by
    simpa using hline
  generalize before.rtakeWhile (· != '\n') = line at *
  have hfirst : (linesOf (line ++ behind))[0]? = some (line ++ behind.takeWhile (· != '\n')) := by
    rw [getElem?_zero_linesOf, takeWhile_append_of_pos hline]
  cases hpre : before.rdropWhile (· != '\n') using List.reverseRecOn with
  | nil =>
    rw [hpre, nil_append] at hsplit
    subst hsplit
    rw [hnone, hfirst]
  | append_singleton pre c _ =>
    -- What is dropped ends with a line feed, and closes as many lines as it has of them.
    have hc : c = '\n' := by
      have hlast := rdropWhile_last_not (· != '\n') before (by simp [hpre])
      simpa [hpre] using hlast
    subst hc
    rw [hpre] at hsplit
    rw [← hsplit, countP_append, hnone, append_assoc, append_assoc,
      singleton_append, linesOf_append_cons_feed]
    have hcount : (pre ++ ['\n']).countP (· == '\n') + 0 = (linesOf pre).length := by
      rw [length_linesOf, countP_append]
      rfl
    rw [hcount, getElem?_append_right (Nat.le_refl _), Nat.sub_self]
    exact hfirst

end Lines

namespace Area

/-- A character that stands out: no blank, tab or line end. -/
def isSolid (c : Char) : Bool :=
  c != ' ' && c != '\t' && c != '\r' && c != '\n'

theorem shownLine_eq (line : List Char) : shownLine line = line.rdropWhile (· == '\r') := rfl

variable {c : Char} {source : List UInt8} {a : Area} {before behind : List Glyph} {g : Glyph}

/-- Only carriage returns behind the last other character are cut off. -/
theorem shownLine_append (hc : c ≠ '\r') (u v : List Char) :
    shownLine (u ++ c :: v) = u ++ c :: shownLine v := by
  simp only [shownLine_eq]
  induction v using List.reverseRecOn with
  | nil => rw [rdropWhile_nil, rdropWhile_concat_neg _ _ _ (by simpa using hc)]
  | append_singleton v x ih =>
    rw [← cons_append, ← append_assoc]
    by_cases hx : x = '\r'
    · rw [rdropWhile_concat_pos _ _ _ (by simpa using hx), ih,
        rdropWhile_concat_pos _ _ _ (by simpa using hx)]
    · rw [rdropWhile_concat_neg _ _ _ (by simpa using hx),
        rdropWhile_concat_neg _ _ _ (by simpa using hx)]
      simp

theorem length_indentOf_le (hc : isSolid c) (u v : List Char) :
    (indentOf (shownLine (u ++ c :: v))).length ≤ u.length := by
  simp only [isSolid, Bool.and_eq_true, bne_iff_ne, ne_eq] at hc
  obtain ⟨⟨⟨hblank, htab⟩, hreturn⟩, -⟩ := hc
  rw [shownLine_append hreturn]
  have hstop : ∀ w : List Char, (c :: w).takeWhile (fun c => c == ' ' || c == '\t') = [] := by
    simp [hblank, htab]
  unfold indentOf
  rw [takeWhile_append]
  split
  · simp [hstop]
  · exact takeWhile_prefix _ |>.length_le

def charsOf (source : List UInt8) : List Char :=
  (Glyph.decode source).map Glyph.char

/-- An area that points into a source.  It starts at a location of the source.  What is shown for
it is not empty: it has the line of the source where it starts, without the carriage returns at its
end, and below it a caret behind as many blanks and tabs as there are columns before the start. -/
def Points (source : List UInt8) (a : Area) : Prop :=
  ∃ start line indent carets rest, a.start = some start ∧ start.Marks source ∧
    a.highlight (charsOf source) ≠ "" ∧
    (linesOf (charsOf source))[(start.line - 1).toNat]? = some line ∧
    linesOf (a.highlight (charsOf source)).toList =
      line.rdropWhile (· == '\r') :: (indent ++ '^' :: carets) :: rest ∧
    (∀ c ∈ indent, c = ' ' ∨ c = '\t') ∧ (indent.length : Int) = start.column - 1

theorem carets_eq (start : Location) (stop : Option Location) :
    ∃ more, carets start stop = '^' :: more ∧ '\n' ∉ more := by
  have hrow : ∀ n, 0 < n → ∃ more, List.replicate n '^' = '^' :: more ∧ '\n' ∉ more := by
    intro n hn
    obtain ⟨k, rfl⟩ : ∃ k, n = k + 1 := ⟨n - 1, by omega⟩
    refine ⟨List.replicate k '^', rfl, fun hmem => ?_⟩
    exact absurd (eq_of_mem_replicate hmem) (by decide)
  cases stop with
  | none => exact hrow 1 (by decide)
  | some stop =>
    unfold carets
    dsimp only
    split
    · exact ⟨" from here ...".toList, by decide, by decide⟩
    · refine hrow _ ?_
      unfold caretCount
      dsimp only
      split <;> omega

theorem points_of_line {start : Location} {u v : List Char} (hstart : a.start = some start)
    (hmarks : start.Marks source)
    (hline : (linesOf (charsOf source))[(start.line - 1).toNat]? = some (u ++ c :: v))
    (hc : isSolid c) (hcolumn : (u.length : Int) ≤ start.column - 1) : a.Points source := by
  have hpositive : ¬start.line < 1 := by
    have hline := hmarks.line_eq
    unfold lineAt at hline
    omega
  obtain ⟨carets, hcarets, hfeed⟩ := carets_eq start a.stop
  have hindent := length_indentOf_le hc u v
  have hfeeds := not_mem_of_mem_linesOf (mem_of_getElem? hline)
  have hshown : '\n' ∉ shownLine (u ++ c :: v) :=
    fun hmem => hfeeds <| rdropWhile_prefix _ _ |>.subset hmem
  generalize hlineEq : u ++ c :: v = line at *
  generalize hblanks : List.replicate (start.column - 1 - (indentOf (shownLine line)).length).toNat
    ' ' = blanks
  have hbelow : ∀ c ∈ indentOf (shownLine line) ++ blanks, c = ' ' ∨ c = '\t' := by
    intro c hmem
    rcases mem_append.1 hmem with hmem | hmem
    · have hblank := mem_takeWhile_imp (p := fun c : Char => c == ' ' || c == '\t') hmem
      simpa using hblank
    · exact .inl (eq_of_mem_replicate (hblanks ▸ hmem))
  have hsecond : '\n' ∉ (indentOf (shownLine line) ++ blanks) ++ '^' :: carets := by
    intro hmem
    rcases mem_append.1 hmem with hmem | hmem
    · rcases hbelow _ hmem with heq | heq <;> exact absurd heq (by decide)
    · rcases mem_cons.1 hmem with heq | hmem
      · exact absurd heq (by decide)
      · exact hfeed hmem
  have htext : (a.highlight (charsOf source)).toList = shownLine line ++ '\n' ::
      (((indentOf (shownLine line) ++ blanks) ++ '^' :: carets) ++ ['\n']) := by
    simp only [highlight, hstart, if_neg hpositive, hline, hcarets, hblanks,
      String.toList_ofList, append_assoc, cons_append]
  refine ⟨start, line, indentOf (shownLine line) ++ blanks, carets, [[]], hstart, hmarks, ?_, hline,
    ?_, hbelow, ?_⟩
  · intro hempty
    rw [hempty] at htext
    simp at htext
  · rw [htext, linesOf_append_feed hshown, linesOf_append_feed hsecond]
    rfl
  · rw [length_append, ← hblanks, length_replicate]
    omega

/-- The line of a location that is reached by moving over the first glyphs of a source. -/
theorem getElem?_linesOf_past (h : Glyph.decode source = before ++ behind) :
    (linesOf (charsOf source))[((Location.start.past before).line - 1).toNat]? =
      some ((before.map Glyph.char).rtakeWhile (· != '\n') ++
        (behind.map Glyph.char).takeWhile (· != '\n')) := by
  have hnumber : ((Location.start.past before).line - 1).toNat =
      (before.map Glyph.char).countP (· == '\n') := by
    have hcount := countP_map (p := (· == '\n')) (f := Glyph.char) (l := before)
    have hline := Location.line_past Location.start before
    have hfirst : Location.start.line = 1 := rfl
    rw [hcount]
    simp only [Function.comp_def]
    omega
  rw [hnumber, ← getElem?_linesOf, charsOf, h, map_append]

theorem column_past_eq (before : List Glyph) :
    (Location.start.past before).column - 1 =
      ((before.map Glyph.char).rtakeWhile (· != '\n')).length := by
  have hlength : ((before.map Glyph.char).rtakeWhile (· != '\n')).length =
      (before.reverse.takeWhile fun g => g.char != '\n').length := by
    rw [List.rtakeWhile, length_reverse, ← map_reverse, takeWhile_map,
      length_map]
    rfl
  rw [Location.column_past]
  omega

theorem points_before (h : Glyph.decode source = before ++ g :: behind) (hg : isSolid g.char)
    (ha : a.start = some (Location.start.past before)) : a.Points source := by
  have hfeed : (g.char != '\n') = true := by
    simp only [isSolid, Bool.and_eq_true] at hg
    exact hg.2
  have hline := getElem?_linesOf_past h
  rw [map_cons, takeWhile_cons_of_pos (p := fun c : Char => c != '\n') hfeed] at hline
  exact points_of_line ha (Location.marks_past h) hline hg (Int.le_of_eq (column_past_eq _).symm)

theorem points_behind (h : Glyph.decode source = (before ++ [g]) ++ behind)
    (hg : isSolid g.char) (ha : a.start = some (Location.start.past (before ++ [g]))) :
    a.Points source := by
  have hfeed : (g.char != '\n') = true := by
    simp only [isSolid, Bool.and_eq_true] at hg
    exact hg.2
  have hcolumn := column_past_eq (before ++ [g])
  have hline := getElem?_linesOf_past h
  rw [map_append, map_singleton, rtakeWhile_concat_pos (fun c : Char => c != '\n') _ _
    hfeed] at hline hcolumn
  rw [append_assoc, singleton_append] at hline
  refine points_of_line ha (Location.marks_past h) hline hg ?_
  rw [hcolumn, length_append]
  omega

end Area

end Diagram
