import Diagram.Proofs.Markup.Apart

/-!
# Constructs that are closed in order

A scan of a text from left to right opens a construct at each brace that is not escaped and at each
`\\left` with its bracket, and closes one at each such brace and at each `\\right`.  A text is
balanced if what is closed is always what was opened last, and if nothing is left open.

Main statements: `Mark.scan_append`, `Mark.Neat.append`.
-/

namespace Diagram.Mark

open List Option

inductive Delimiter where
  | brace
  | sized (b : Bracket)
deriving DecidableEq

/-- The bracket that a text begins with, on one side. -/
def bracket? (side : Bracket → String) (cs : List Char) : Option Bracket :=
  [.paren, .square, .curly, .pipe].find? fun b => (side b).toList.isPrefixOf cs

/-- Closes what was opened last. -/
def close (d : Delimiter) : List Delimiter → Option (List Delimiter)
  | [] => none
  | e :: stack => if e = d then some stack else none

/-- What a backslash does to what is open, and how many of the characters behind it belong to
it. -/
def escape (stack : List Delimiter) (cs : List Char) : Option (Nat × List Delimiter) :=
  if "left".toList.isPrefixOf cs then
    (bracket? Bracket.left (cs.drop 4)).map fun b => (4 + b.left.toList.length, .sized b :: stack)
  else if "right".toList.isPrefixOf cs then
    (bracket? Bracket.right (cs.drop 5)).bind fun b =>
      (close (.sized b) stack).map (5 + b.right.toList.length, ·)
  else some (1, stack)

def step (stack : List Delimiter) (c : Char) (cs : List Char) : Option (Nat × List Delimiter) :=
  match c with
  | '\x7b' => some (0, .brace :: stack)
  | '\x7d' => (close .brace stack).map (0, ·)
  | '\\' => escape stack cs
  | _ => some (0, stack)

/-- What is open behind a text of which `k` characters are passed over. -/
def scan : (k : Nat) → List Delimiter → List Char → Option (List Delimiter)
  | 0, stack, [] => some stack
  | _ + 1, _, [] => none
  | 0, stack, c :: cs => (step stack c cs).bind fun next => scan next.1 next.2 cs
  | k + 1, stack, _ :: cs => scan k stack cs

def Balanced (cs : List Char) : Prop :=
  scan 0 [] cs = some []

instance (cs : List Char) : Decidable (Balanced cs) :=
  inferInstanceAs (Decidable (_ = _))

variable {k : Nat} {stack stack' : List Delimiter} {cs ds : List Char} {c : Char}

theorem bracket?_eq_some {side : Bracket → String} {b : Bracket} (h : bracket? side cs = some b) :
    ∃ rest, cs = (side b).toList ++ rest := by
  have hprefix := find?_some (p := fun b : Bracket => (side b).toList.isPrefixOf cs) h
  obtain ⟨rest, hrest⟩ := isPrefixOf_iff_prefix.1 hprefix
  exact ⟨rest, hrest.symm⟩

theorem bracket?_left (b : Bracket) (rest : List Char) :
    bracket? Bracket.left (b.left.toList ++ rest) = some b := by
  cases b <;> rfl

theorem bracket?_right (b : Bracket) (rest : List Char) :
    bracket? Bracket.right (b.right.toList ++ rest) = some b := by
  cases b <;> rfl

theorem close_append {d : Delimiter} (h : close d stack = some stack') (under : List Delimiter) :
    close d (stack ++ under) = some (stack' ++ under) := by
  cases stack with
  | nil => cases h
  | cons e stack =>
    obtain ⟨he, h⟩ := ite_none_right_eq_some.1 h
    rw [cons_append, close, if_pos he, Option.some.inj h]

/-- A word of letters does not come about where a text meets the next one, if they are kept
apart. -/
theorem isPrefixOf_append {w : List Char} (hw : ∀ c ∈ w, Text.isLetter c) (hcs : cs ≠ [])
    (hapart : lastIsLetter cs → headIsLetter ds = false) :
    w.isPrefixOf (cs ++ ds) = w.isPrefixOf cs := by
  rw [Bool.eq_iff_iff, isPrefixOf_iff_prefix, isPrefixOf_iff_prefix]
  refine ⟨fun h => ?_, fun h => h.trans (prefix_append cs ds)⟩
  rcases prefix_or_prefix_of_prefix h (prefix_append cs ds) with h' | ⟨t, rfl⟩
  · exact h'
  · have ht : t <+: ds := (prefix_append_right_inj cs).1 h
    cases t with
    | nil => simp
    | cons d t =>
      obtain ⟨rest, rfl⟩ := ht
      have hlast : lastIsLetter cs = true := by
        rw [lastIsLetter, getLast?_eq_some_getLast hcs]
        exact hw _ (mem_append_left _ (getLast_mem hcs))
      have hd : Text.isLetter d = true := hw d (by simp)
      have hhead : Text.isLetter d = false := hapart hlast
      rw [hd] at hhead
      cases hhead

variable {next : Nat × List Delimiter}

theorem escape_append (h : escape stack cs = some next) (hk : next.1 ≤ cs.length)
    (hapart : lastIsLetter cs → headIsLetter ds = false) (under : List Delimiter) :
    escape (stack ++ under) (cs ++ ds) = some (next.1, next.2 ++ under) := by
  have hleft : ∀ c ∈ "left".toList, Text.isLetter c = true := all_eq_true.1 rfl
  have hright : ∀ c ∈ "right".toList, Text.isLetter c = true := all_eq_true.1 rfl
  have hne : cs ≠ [] := by
    rintro rfl
    cases h
    cases hk
  unfold escape at h ⊢
  rw [isPrefixOf_append hleft hne hapart, isPrefixOf_append hright hne hapart]
  split at h
  · rename_i hword
    obtain ⟨b, hb, rfl⟩ := map_eq_some_iff.1 h
    obtain ⟨rest, hrest⟩ := bracket?_eq_some hb
    have hlength : 4 ≤ cs.length := isPrefixOf_iff_prefix.1 hword |>.length_le
    rw [if_pos hword, drop_append_of_le_length hlength, hrest, append_assoc, bracket?_left]
    rfl
  split at h
  · rename_i hother hword
    obtain ⟨b, hb, h⟩ := bind_eq_some_iff.1 h
    obtain ⟨below, hbelow, rfl⟩ := map_eq_some_iff.1 h
    obtain ⟨rest, hrest⟩ := bracket?_eq_some hb
    have hlength : 5 ≤ cs.length := isPrefixOf_iff_prefix.1 hword |>.length_le
    rw [if_neg hother, if_pos hword, drop_append_of_le_length hlength, hrest,
      append_assoc, bracket?_right, bind_some, close_append hbelow under]
    rfl
  · rename_i hother hother'
    cases h
    rw [if_neg hother, if_neg hother']

theorem step_append (h : step stack c cs = some next) (hk : next.1 ≤ cs.length)
    (hapart : lastIsLetter cs → headIsLetter ds = false) (under : List Delimiter) :
    step (stack ++ under) c (cs ++ ds) = some (next.1, next.2 ++ under) := by
  unfold step at h ⊢
  split at h
  · cases h
    rfl
  · obtain ⟨rest, hrest, rfl⟩ := map_eq_some_iff.1 h
    simp only [close_append hrest under, map_some]
  · exact escape_append h hk hapart under
  · cases h
    simp [*]

theorem le_length_of_scan (h : scan k stack cs = some stack') : k ≤ cs.length := by
  induction cs generalizing k with
  | nil => cases k <;> first | exact Nat.le_refl 0 | cases h
  | cons c cs ih =>
    cases k with
    | zero => exact Nat.zero_le _
    | succ k => exact Nat.succ_le_succ (ih h)

/-- A scan goes on behind a text as it would with what the text leaves open, whatever was open
before. -/
theorem scan_append (h : scan k stack cs = some stack')
    (hapart : lastIsLetter cs → headIsLetter ds = false) (under : List Delimiter) :
    scan k (stack ++ under) (cs ++ ds) = scan 0 (stack' ++ under) ds := by
  induction cs generalizing k stack with
  | nil =>
    cases k with
    | zero =>
      cases h
      rfl
    | succ k => cases h
  | cons c cs ih =>
    have hrest : lastIsLetter cs = true → headIsLetter ds = false := by
      intro hlast
      refine hapart ((lastIsLetter_cons ?_ c).trans hlast)
      rintro rfl
      cases hlast
    cases k with
    | zero =>
      obtain ⟨next, hnext, h⟩ := bind_eq_some_iff.1 h
      rw [cons_append, scan, step_append hnext (le_length_of_scan h) hrest under]
      exact ih h hrest
    | succ k => exact ih h hrest

namespace Balanced

theorem scan_eq (h : Balanced cs) (hapart : lastIsLetter cs → headIsLetter ds = false)
    (stack : List Delimiter) : scan 0 stack (cs ++ ds) = scan 0 stack ds :=
  scan_append h hapart stack

theorem append (h : Balanced cs) (h' : Balanced ds)
    (hapart : lastIsLetter cs → headIsLetter ds = false) : Balanced (cs ++ ds) :=
  (h.scan_eq hapart []).trans h'

theorem braced (h : Balanced cs) : Balanced (braced cs) := by
  change scan 0 [.brace] (cs ++ ['\x7d']) = some []
  rw [h.scan_eq fun _ => by decide]
  decide

theorem bracketed (h : Balanced cs) (b : Bracket) :
    Balanced ("\\left".toList ++ b.left.toList ++ cs ++ ("\\right".toList ++ b.right.toList)) := by
  have hopen : scan 0 [] ("\\left".toList ++ b.left.toList ++ cs ++
      ("\\right".toList ++ b.right.toList)) =
      scan 0 [.sized b] (cs ++ ("\\right".toList ++ b.right.toList)) := by
    cases b <;> rfl
  rw [Balanced, hopen, h.scan_eq fun _ => by cases b <;> decide]
  cases b <;> decide

end Balanced

theorem Balanced.cons (hc : c ∉ ['\x7b', '\x7d', '\\']) (h : Balanced cs) : Balanced (c :: cs) := by
  have hstep : step [] c cs = some (0, []) := by
    simp only [mem_cons, not_mem_nil, or_false, not_or] at hc
    simp [step, hc]
  rw [Balanced, scan, hstep]
  exact h

/-- Without braces and backslashes there is nothing to open or to close. -/
theorem balanced_of_plain (h : ∀ c ∈ cs, c ∉ ['\x7b', '\x7d', '\\']) : Balanced cs := by
  induction cs with
  | nil => rfl
  | cons c cs ih =>
    obtain ⟨hc, hcs⟩ := forall_mem_cons.1 h
    exact (ih hcs).cons hc

theorem balanced_of_forall {q : Char → Bool} (hq : ['\x7b', '\x7d', '\\'].any q = false)
    (h : ∀ c ∈ cs, q c) : Balanced cs := by
  refine balanced_of_plain fun c hc hmem => ?_
  exact any_eq_false.1 hq c hmem (h c hc)

/-- A markup that is balanced wherever it stands and that brings no letter next to a letter.  It
has an empty run only if it may be `hollow`. -/
structure Neat (hollow : Bool) (ms : Markup) : Prop where
  balanced : ∀ flag, Balanced (charsOf flag ms)
  apart : headIsLetter (charsOf true ms) = false
  full : run "" ∈ ms → hollow = true

variable {hollow : Bool} {m : Mark} {ms ms' : Markup}

theorem charsOf_eq_nil_iff {flag : Bool} : charsOf flag ms = [] ↔ ∀ m ∈ ms, m = run "" := by
  rw [← flatten_outputs, flatten_eq_nil_iff, outputs_eq_nil_iff]

theorem neat_nil : Neat hollow [] :=
  ⟨fun _ => rfl, rfl, nofun⟩

theorem neat_mark (h : ∀ flag, Balanced (m.chars flag)) (hm : m = run "" → hollow) :
    Neat hollow [m] := by
  have hchars : ∀ flag, charsOf flag [m] = m.chars flag := fun _ => append_nil _
  exact ⟨fun flag => hchars flag ▸ h flag, hchars true ▸ (chars_after_letter m).1,
    fun hmem => hm (mem_singleton.1 hmem).symm⟩

namespace Neat

/-- Two markups make one, unless an empty run stands between two letters. -/
theorem append (h : Neat hollow ms) (h' : Neat hollow ms')
    (hjoin : hollow → ms.getLast? ≠ some (run "") ∨ headIsLetter (charsOf false ms') = false) :
    Neat hollow (ms ++ ms') where
  balanced flag := by
    rw [charsOf_append]
    refine (h.balanced flag).append (h'.balanced _) fun hlast => ?_
    rcases eq_nil_or_concat ms with rfl | ⟨ms, m, rfl⟩
    · cases hlast
    rw [concat_eq_append] at h hlast hjoin ⊢
    rw [flagAfter_append]
    by_cases hm : m = run ""
    · -- The run resets the flag, so what follows must not begin with a letter.
      subst hm
      exact (hjoin (h.full (by simp))).resolve_left fun hne => hne getLast?_concat
    · rw [lastIsLetter_charsOf_concat hm] at hlast
      rw [flagAfter, hlast]
      exact h'.apart
  apart := by
    rw [charsOf_append]
    by_cases hnil : charsOf true ms = []
    · have hempty := charsOf_eq_nil_iff.1 hnil
      rcases eq_nil_or_concat ms with rfl | ⟨ms, m, rfl⟩
      · exact h'.apart
      · rw [hnil, flagAfter_of_empty (by simp) hempty]
        obtain rfl := hempty m (by simp)
        exact (hjoin (h.full (by simp))).resolve_left fun hne => hne (by simp)
    · rw [headIsLetter_append hnil]
      exact h.apart
  full hmem := (mem_append.1 hmem).elim h.full h'.full

theorem cons (hm : Neat hollow [m]) (hne : m ≠ run "") (h : Neat hollow ms) :
    Neat hollow (m :: ms) :=
  hm.append h fun _ => .inl (by simpa using hne)

theorem behind (h : Neat hollow ms) (h' : Neat hollow ms')
    (hhead : headIsLetter (charsOf false ms') = false) : Neat hollow (ms ++ ms') :=
  h.append h' fun _ => .inr hhead

theorem bracketed (h : Neat hollow ms) (b : Bracket) :
    Neat hollow (opening b :: ms ++ [closing b]) := by
  have hchars : ∀ flag, charsOf flag (opening b :: ms ++ [closing b]) =
      "\\left".toList ++ b.left.toList ++ charsOf false ms ++
        ("\\right".toList ++ b.right.toList) := by
    simp [charsOf_append, charsOf, endsInLetter]
  refine ⟨fun flag => hchars flag ▸ (h.balanced false).bracketed b, ?_, fun hmem => ?_⟩
  · rfl
  · exact h.full (by simpa using hmem)

end Neat

section Marks

variable (h : Neat hollow ms) (h' : Neat hollow ms')

include h

theorem neat_subscript : Neat hollow [subscript ms] :=
  neat_mark (fun _ => (h.balanced false).braced.cons (by decide)) nofun

theorem neat_superscript : Neat hollow [superscript ms] :=
  neat_mark (fun _ => (h.balanced false).braced.cons (by decide)) nofun

theorem neat_root : Neat hollow [root ms] := by
  refine neat_mark (fun _ => ?_) nofun
  have hcommand : Balanced "\\sqrt".toList := by decide
  exact hcommand.append (h.balanced false).braced fun _ => rfl

include h'

theorem neat_fraction : Neat hollow [fraction ms ms'] := by
  refine neat_mark (fun _ => ?_) nofun
  have hnumerator : Balanced ("\\frac".toList ++ braced (charsOf false ms)) :=
    Balanced.append (by decide) (h.balanced false).braced fun _ => rfl
  exact hnumerator.append (h'.balanced false).braced fun _ => rfl

theorem neat_nthRoot : Neat hollow [nthRoot ms ms'] := by
  refine neat_mark (fun _ => ?_) nofun
  have hindex : Balanced ("\\sqrt".toList ++ '[' :: charsOf false ms) :=
    Balanced.append (by decide) ((h.balanced false).cons (by decide)) fun _ => rfl
  exact hindex.append ((h'.balanced false).braced.cons (by decide)) fun _ => rfl

end Marks

theorem neat_control {name : String} (h : Balanced ('\\' :: name.toList)) :
    Neat hollow [control name] :=
  neat_mark (fun _ => h) nofun

theorem neat_operatorName {name : String} (h : Balanced name.toList) :
    Neat hollow [operatorName name] := by
  have hcommand : Balanced "\\operatorname".toList := by decide
  exact neat_mark (fun _ => hcommand.append h.braced fun _ => rfl) nofun

theorem neat_run {s : String} (h : Balanced s.toList) (hs : s = "" → hollow) :
    Neat hollow [run s] := by
  refine neat_mark (fun flag => ?_) fun hrun => hs (run.inj hrun)
  rw [chars_run, runChars]
  split
  · exact h.cons (by decide)
  · exact h

theorem neat_symbol (hc : c ≠ '\\') : Neat hollow [symbol c] := by
  refine neat_mark (fun flag => ?_) nofun
  have hplain : ¬isSpecial c = true → Balanced [c] := by
    refine fun h => balanced_of_forall (q := fun c => c != '\\' && !isSpecial c) (by decide) ?_
    simp [hc, h]
  rw [chars_symbol]
  fun_cases symbolChars flag c with
  | case1 h =>
    have hspecial := contains_iff_mem.1 h
    simp only [mem_cons, not_mem_nil, or_false] at hspecial
    rcases hspecial with rfl | rfl | rfl | rfl | rfl | rfl <;> decide
  | case2 => decide
  | case3 h => exact (hplain h).cons (by decide)
  | case4 h => exact hplain h

end Diagram.Mark
