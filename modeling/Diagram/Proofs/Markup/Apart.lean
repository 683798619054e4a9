import Diagram.Markup
import Mathlib.Data.List.Basic

/-!
# Letters that are kept apart

A primitive that begins with a letter is written with a blank in front if the one before it ends
in a letter.  Only the primitive directly before it counts, and an empty run ends in no letter.  So
two letters are written side by side exactly where nothing but empty runs stands between them.

Main statement: `Mark.keepsApart_outputs_iff`.
-/

namespace Diagram.Mark

open List

def headIsLetter (cs : List Char) : Bool :=
  cs.head?.any Text.isLetter

def lastIsLetter (cs : List Char) : Bool :=
  cs.getLast?.any Text.isLetter

/-- Whether a letter behind some primitives needs a blank in front. -/
def flagAfter (flag : Bool) : List Mark → Bool
  | [] => flag
  | m :: ms => flagAfter m.endsInLetter ms

/-- What the primitives of a markup write, one after the other. -/
def outputs (flag : Bool) : List Mark → List (List Char)
  | [] => []
  | m :: ms => m.chars flag :: outputs m.endsInLetter ms

section Equations

variable (flag : Bool) (content content' : List Mark) (b : Bracket) (s : String)

@[simp] theorem chars_group : (group content).chars flag = braced (charsOf false content) := rfl

@[simp] theorem chars_root :
    (root content).chars flag = "\\sqrt".toList ++ braced (charsOf false content) := rfl

@[simp] theorem chars_nthRoot :
    (nthRoot content content').chars flag = "\\sqrt".toList ++ '[' :: charsOf false content ++
      ']' :: braced (charsOf false content') := rfl

@[simp] theorem chars_fraction :
    (fraction content content').chars flag = "\\frac".toList ++ braced (charsOf false content) ++
      braced (charsOf false content') := rfl

@[simp] theorem chars_superscript :
    (superscript content).chars flag = '^' :: braced (charsOf false content) := rfl

@[simp] theorem chars_subscript :
    (subscript content).chars flag = '_' :: braced (charsOf false content) := rfl

@[simp] theorem chars_opening :
    (opening b).chars flag = "\\left".toList ++ b.left.toList := rfl

@[simp] theorem chars_closing :
    (closing b).chars flag = "\\right".toList ++ b.right.toList := rfl

@[simp] theorem chars_operatorName :
    (operatorName s).chars flag = "\\operatorname".toList ++ braced s.toList := rfl

@[simp] theorem chars_control : (control s).chars flag = '\\' :: s.toList := rfl

@[simp] theorem chars_symbol (c : Char) : (symbol c).chars flag = symbolChars flag c := rfl

@[simp] theorem chars_run : (run s).chars flag = runChars flag s := rfl

end Equations

variable {flag : Bool} {m : Mark} {ms : List Mark} {cs ds : List Char}

theorem headIsLetter_append (h : cs ≠ []) : headIsLetter (cs ++ ds) = headIsLetter cs := by
  rw [headIsLetter, head?_append_of_ne_nil cs h, headIsLetter]

theorem lastIsLetter_append (h : ds ≠ []) : lastIsLetter (cs ++ ds) = lastIsLetter ds := by
  rw [lastIsLetter, getLast?_append_of_ne_nil cs h, lastIsLetter]

theorem lastIsLetter_cons (h : cs ≠ []) (c : Char) : lastIsLetter (c :: cs) = lastIsLetter cs :=
  @lastIsLetter_append [c] cs h

theorem braced_ne_nil (content : List Char) : braced content ≠ [] := by
  simp [braced]

theorem lastIsLetter_braced (content : List Char) : lastIsLetter (braced content) = false := by
  rw [braced, lastIsLetter_append (cons_ne_nil _ _)]
  decide

theorem flatten_outputs (flag : Bool) (ms : List Mark) :
    (outputs flag ms).flatten = charsOf flag ms := by
  induction ms generalizing flag with
  | nil => rfl
  | cons m ms ih => rw [outputs, flatten_cons, ih, charsOf]

theorem outputs_append (flag : Bool) (ms ms' : List Mark) :
    outputs flag (ms ++ ms') = outputs flag ms ++ outputs (flagAfter flag ms) ms' := by
  induction ms generalizing flag with
  | nil => rfl
  | cons m ms ih => rw [cons_append, outputs, ih, outputs, flagAfter, cons_append]

theorem charsOf_append (flag : Bool) (ms ms' : List Mark) :
    charsOf flag (ms ++ ms') = charsOf flag ms ++ charsOf (flagAfter flag ms) ms' := by
  simp only [← flatten_outputs, outputs_append, flatten_append]

theorem symbolChars_ne_nil (flag : Bool) (c : Char) : symbolChars flag c ≠ [] := by
  fun_cases symbolChars flag c <;> simp

theorem runChars_eq_nil_iff {s : String} : runChars flag s = [] ↔ s = "" := by
  rw [← String.toList_eq_nil_iff]
  fun_cases runChars flag s with
  | case1 h =>
    have hs : s.toList ≠ [] := by
      intro hnil
      simp [startsWithLetter, hnil] at h
    simp [hs]
  | case2 => rfl

theorem chars_eq_nil_iff : m.chars flag = [] ↔ m = run "" := by
  cases m with
  | symbol c => simp [symbolChars_ne_nil]
  | run s => simp [runChars_eq_nil_iff]
  | _ => simp [braced]

/-- The flag behind a primitive says how what it writes ends. -/
theorem lastIsLetter_chars (flag : Bool) (m : Mark) :
    lastIsLetter (m.chars flag) = m.endsInLetter := by
  cases m with
  | group | root | nthRoot | fraction | superscript | subscript | operatorName =>
    simp [endsInLetter, lastIsLetter_append, lastIsLetter_cons, lastIsLetter_braced, braced_ne_nil]
  | opening b | closing b => cases b <;> decide +revert
  | control name =>
    rw [chars_control, endsInLetter, endsWithLetter]
    by_cases hname : name.toList = []
    · rw [hname]
      decide
    · exact lastIsLetter_cons hname _
  | symbol c =>
    rw [chars_symbol, endsInLetter]
    fun_cases symbolChars flag c with
    | case1 h =>
      have hc := contains_iff_mem.1 h
      simp only [mem_cons, not_mem_nil, or_false] at hc
      rcases hc with rfl | rfl | rfl | rfl | rfl | rfl <;> decide
    | case2 _ h =>
      subst h
      decide
    | case3 | case4 => simp [lastIsLetter, *]
  | run s =>
    rw [chars_run, endsInLetter]
    fun_cases runChars flag s with
    | case1 h =>
      refine lastIsLetter_cons (fun hnil => ?_) ' '
      simp [startsWithLetter, hnil] at h
    | case2 => rfl

/-- Behind a letter a primitive is written as elsewhere, with a blank in front if it begins with a
letter. -/
theorem chars_after_letter (m : Mark) :
    headIsLetter (m.chars true) = false ∧ (m.chars true = m.chars false ∨
      m.chars true = ' ' :: m.chars false ∧ headIsLetter (m.chars false)) := by
  have hblank : headIsLetter (' ' :: m.chars false) = false := by
    rw [headIsLetter, head?_cons]
    decide
  have hslash : Text.isLetter '\\' = false := by decide
  cases m with
  | symbol c =>
    by_cases hspecial : isSpecial c = true
    · simp [symbolChars, hspecial, headIsLetter, hslash]
    by_cases htilde : c = '~'
    · subst htilde
      decide
    cases hletter : Text.isLetter c <;>
      simp_all [symbolChars, headIsLetter]
  | run s =>
    have hhead : headIsLetter s.toList = startsWithLetter s := rfl
    cases hs : startsWithLetter s <;> simp_all [runChars]
  | group | superscript | subscript => exact ⟨rfl, .inl rfl⟩
  | _ => exact ⟨by simp [headIsLetter, hslash], .inl rfl⟩

theorem flagAfter_append (flag : Bool) (ms ms' : List Mark) :
    flagAfter flag (ms ++ ms') = flagAfter (flagAfter flag ms) ms' := by
  induction ms generalizing flag with
  | nil => rfl
  | cons m ms ih => exact ih _

/-- What a primitive that writes something ends in, a markup ends in. -/
theorem lastIsLetter_charsOf_concat (hm : m ≠ run "") (flag : Bool) (ms : List Mark) :
    lastIsLetter (charsOf flag (ms ++ [m])) = m.endsInLetter := by
  rw [charsOf_append, charsOf, charsOf, append_nil,
    lastIsLetter_append (mt chars_eq_nil_iff.1 hm), lastIsLetter_chars]

/-- Where a blank is needed, the text so far ends in a letter. -/
theorem lastIsLetter_charsOf (h : flagAfter false ms) : lastIsLetter (charsOf false ms) := by
  rcases eq_nil_or_concat ms with rfl | ⟨ms, m, rfl⟩
  · cases h
  · rw [concat_eq_append] at h ⊢
    rw [flagAfter_append] at h
    refine (lastIsLetter_charsOf_concat (fun hm => ?_) false ms).trans h
    rw [hm] at h
    cases h

theorem outputs_eq_nil_iff {gap : List Mark} :
    (∀ o ∈ outputs flag gap, o = []) ↔ ∀ x ∈ gap, x = run "" := by
  induction gap generalizing flag with
  | nil => exact ⟨nofun, nofun⟩
  | cons x gap ih => rw [outputs, forall_mem_cons, forall_mem_cons, chars_eq_nil_iff, ih]

/-- An empty run is followed as if no letter stood before it. -/
theorem flagAfter_of_empty {gap : List Mark} (hgap : gap ≠ []) (h : ∀ x ∈ gap, x = run "") :
    flagAfter flag gap = false := by
  obtain ⟨gap, x, rfl⟩ := eq_nil_or_concat gap |>.resolve_left hgap
  rw [concat_eq_append, flagAfter_append, h x (by simp)]
  rfl

/-- Where the outputs of a markup are split, so is the markup. -/
theorem exists_of_outputs {before after : List (List Char)} {o : List Char}
    (h : outputs flag ms = before ++ o :: after) :
    ∃ pre m post, ms = pre ++ m :: post ∧ outputs flag pre = before ∧
      o = m.chars (flagAfter flag pre) ∧ outputs m.endsInLetter post = after := by
  induction before generalizing flag ms with
  | nil =>
    cases ms with
    | nil => cases h
    | cons m ms =>
      obtain ⟨ho, hafter⟩ := List.cons.inj h
      exact ⟨[], m, ms, rfl, rfl, ho.symm, hafter⟩
  | cons o' before ih =>
    cases ms with
    | nil => cases h
    | cons m' ms =>
      obtain ⟨ho', hrest⟩ := List.cons.inj h
      obtain ⟨pre, m, post, rfl, hbefore, ho, hafter⟩ := ih hrest
      exact ⟨m' :: pre, m, post, rfl, by rw [outputs, ho', hbefore], ho, hafter⟩

/-- No letter that ends an output is followed at once by a letter that begins a later one. -/
def KeepsApart (os : List (List Char)) : Prop :=
  ∀ before o gap o' after, os = before ++ o :: (gap ++ o' :: after) → (∀ x ∈ gap, x = []) →
    lastIsLetter o = true → headIsLetter o' = false

/-- A letter follows a letter at once only across empty runs.  A blank is written only between two
letters. -/
theorem keepsApart_outputs_iff (ms : Markup) :
    ms.text.toList = (outputs false ms).flatten ∧
    (KeepsApart (outputs false ms) ↔
      ∀ pre m gap m' post, ms = pre ++ m :: (gap ++ m' :: post) → gap ≠ [] →
        (∀ x ∈ gap, x = run "") → lastIsLetter (m.chars false) = true →
          headIsLetter (m'.chars false) = false) ∧
    ∀ pre m post, ms = pre ++ m :: post → ∃ o after,
      outputs false ms = outputs false pre ++ o :: after ∧
        (o = m.chars false ∨ o = ' ' :: m.chars false ∧
          lastIsLetter (outputs false pre).flatten = true ∧
            headIsLetter (m.chars false) = true) := by
  refine ⟨by rw [Markup.text, String.toList_ofList, flatten_outputs], ⟨?_, ?_⟩, ?_⟩
  · rintro h pre m gap m' post rfl hgap hempty hlast
    rw [lastIsLetter_chars] at hlast
    have hflag : flagAfter m.endsInLetter gap = false := flagAfter_of_empty hgap hempty
    refine h (outputs false pre) (m.chars (flagAfter false pre)) (outputs m.endsInLetter gap)
      (m'.chars false) (outputs m'.endsInLetter post) ?_ (outputs_eq_nil_iff.2 hempty) ?_
    · rw [outputs_append, outputs, outputs_append, outputs, hflag]
    · rw [lastIsLetter_chars, hlast]
  · intro h before o gap o' after hos hempty hlast
    obtain ⟨pre, m, rest, rfl, -, rfl, hrest⟩ := exists_of_outputs hos
    obtain ⟨gap, m', post, rfl, rfl, rfl, -⟩ := exists_of_outputs hrest
    rw [lastIsLetter_chars] at hlast
    have hgap := outputs_eq_nil_iff.1 hempty
    by_cases hnil : gap = []
    · -- Nothing stands between the two, so the flag is that of the first.
      rw [hnil, flagAfter, hlast]
      exact (chars_after_letter m').1
    · rw [flagAfter_of_empty hnil hgap]
      exact h pre m gap m' post rfl hnil hgap (by rw [lastIsLetter_chars, hlast])
  · rintro pre m post rfl
    refine ⟨m.chars (flagAfter false pre), outputs m.endsInLetter post, ?_, ?_⟩
    · rw [outputs_append, outputs]
    · cases hflag : flagAfter false pre with
      | false => exact .inl rfl
      | true =>
        rw [flatten_outputs]
        exact (chars_after_letter m).2.imp_right fun ⟨hblank, hhead⟩ =>
          ⟨hblank, lastIsLetter_charsOf hflag, hhead⟩

/-- An empty run lets a control word absorb the letter behind it. -/
theorem text_of_empty_run :
    let ms : Markup := [control "to", run "", run "x"]
    ms.text = "\\tox" ∧ outputs false ms = ["\\to".toList, [], ['x']] ∧
      ¬KeepsApart (outputs false ms) := by
  refine ⟨by decide, by decide, fun h => ?_⟩
  exact absurd (h [] "\\to".toList [[]] ['x'] [] (by decide) (by simp) (by decide)) (by decide)

end Diagram.Mark
