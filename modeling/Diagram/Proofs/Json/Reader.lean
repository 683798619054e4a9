import Diagram.Proofs.Json.Spelling
import Mathlib.Data.List.Basic

/-!
# Reading JSON

A reader of the interchange format.  It reads one value from the start of a text and leaves what
follows it.  A text is read as a value exactly if it spells that value, so a spelling belongs to
one value only.

Main statement: `Json.read?_eq_some_iff`.
-/

namespace Diagram.Json

open List Option

/-- What a reader takes from the start of a text, and what it leaves. -/
abbrev Reader (α : Type) := List Char → Option (α × List Char)

def charOf? (n : Nat) : Option Char :=
  if (Char.ofNat n).toNat = n then some (Char.ofNat n) else none

/-- The character that is written by a letter behind a backslash. -/
def unletter? (l : Char) : Option Char :=
  (letters.find? (·.2 == l)).map (·.1)

def readQuoted : Reader (List Char)
  | '"' :: rest => some ([], rest)
  | '\\' :: 'u' :: a :: b :: c :: d :: rest =>
    ((codePoint? [a, b, c, d]).bind charOf?).bind fun char =>
      (readQuoted rest).map fun r => (char :: r.1, r.2)
  | '\\' :: l :: rest =>
    (unletter? l).bind fun char => (readQuoted rest).map fun r => (char :: r.1, r.2)
  | char :: rest =>
    if char.toNat < 0x20 then none else (readQuoted rest).map fun r => (char :: r.1, r.2)
  | [] => none

/-- Reads a text behind its opening quote. -/
def readText (cs : List Char) : Option (String × List Char) :=
  (readQuoted cs).map fun r => (String.ofList r.1, r.2)

/-- Reads the digits of a natural number, which has no leading zeros. -/
def readDigits (cs : List Char) : Option (Nat × List Char) :=
  let ds := cs.takeWhile Char.isDigit
  if ds.isEmpty || (ds.head? == some '0' && ds != ['0']) then none
  else some (Nat.ofDigitChars 10 ds 0, cs.dropWhile Char.isDigit)

def readNumber : Reader Int
  | '-' :: rest =>
    match readDigits rest with
    | some (n + 1, rest) => some (.negSucc n, rest)
    | _ => none
  | cs => (readDigits cs).map fun r => (.ofNat r.1, r.2)

/-- Reads a truth value or a number. -/
def readScalar : Reader Json
  | 't' :: 'r' :: 'u' :: 'e' :: rest => some (.bool true, rest)
  | 'f' :: 'a' :: 'l' :: 's' :: 'e' :: rest => some (.bool false, rest)
  | cs => (readNumber cs).map fun r => (.number r.1, r.2)

/-- Reads nothing but a closing character, or what a reader finds. -/
def readUnless {α : Type} (close : Char) (read : Reader (List α)) : Reader (List α)
  | c :: rest => if c = close then some ([], rest) else read (c :: rest)
  | [] => none

mutual

/-- Reads a value.  The number bounds how many values and fields can be open, which the length
of the text does as well. -/
def readValue : Nat → Reader Json
  | 0, _ => none
  | _ + 1, [] => none
  | n + 1, c :: rest =>
    if c = '"' then (readText rest).map fun r => (.text r.1, r.2)
    else if c = '[' then (readUnless ']' (readItems n) rest).map fun r => (.list r.1, r.2)
    else if c = '\x7b' then
      (readUnless '\x7d' (readFields n) rest).map fun r => (.object r.1, r.2)
    else readScalar (c :: rest)

def readItems : Nat → Reader (List Json)
  | 0, _ => none
  | n + 1, cs =>
    (readValue n cs).bind fun r =>
      match r.2 with
      | ',' :: rest => (readItems n rest).map fun s => (r.1 :: s.1, s.2)
      | ']' :: rest => some ([r.1], rest)
      | _ => none

def readFields : Nat → Reader (List (String × Json))
  | 0, _ => none
  | n + 1, '"' :: cs =>
    (readText cs).bind fun key =>
      match key.2 with
      | ':' :: rest =>
        (readValue n rest).bind fun r =>
          match r.2 with
          | ',' :: rest => (readFields n rest).map fun s => ((key.1, r.1) :: s.1, s.2)
          | '\x7d' :: rest => some ([(key.1, r.1)], rest)
          | _ => none
      | _ => none
  | _ + 1, _ => none

end

/-- Reads a whole text as a value. -/
def read? (cs : List Char) : Option Json :=
  (readValue cs.length cs).bind fun r => if r.2.isEmpty then some r.1 else none

/-! ### Texts -/

variable {n : Nat} {c close : Char} {cs ds rest : List Char} {s : String} {j : Json}
  {fields : List (String × Json)} {α : Type}

theorem charOf?_eq_some_iff : charOf? n = some c ↔ c.toNat = n := by
  unfold charOf?
  constructor
  · intro h
    split at h
    · cases h
      assumption
    · cases h
  · rintro rfl
    rw [Char.ofNat_toNat, if_pos rfl]

theorem unletter?_eq_some_iff {l : Char} : unletter? l = some c ↔ (c, l) ∈ letters := by
  have hread : ∀ e ∈ letters, unletter? e.2 = some e.1 := by decide
  constructor
  · intro h
    obtain ⟨⟨c', l'⟩, hfind, rfl⟩ := Option.map_eq_some_iff.1 h
    have hl := List.find?_some hfind
    rw [beq_iff_eq] at hl
    subst hl
    exact List.mem_of_find?_eq_some hfind
  · exact hread (c, l)

/-- Behind a backslash there is a letter or a code point, and all else stands for itself. -/
theorem readQuoted_of_escaped (h : Escaped cs ds) (rest : List Char) :
    readQuoted (ds ++ '"' :: rest) = some (cs, rest) := by
  induction h with
  | nil => rfl
  | @plain c cs ds hquote hbackslash hcontrol _ ih =>
    rw [cons_append, readQuoted, if_neg (by omega), ih]
    · rfl
    all_goals simp_all
  | @letter c l cs ds hl _ ih =>
    have hu : l ≠ 'u' := (by decide : ∀ e ∈ letters, e.2 ≠ 'u') (c, l) hl
    rw [cons_append, cons_append, readQuoted, unletter?_eq_some_iff.2 hl, ih]
    · rfl
    · simp [hu]
  | @point c cs digits ds hdigits _ ih =>
    match digits, hdigits with
    | [_, _, _, _], hdigits =>
      show readQuoted ('\\' :: 'u' :: _ :: _ :: _ :: _ :: (ds ++ '"' :: rest)) = _
      rw [readQuoted, hdigits, Option.bind_some, charOf?_eq_some_iff.2 rfl, ih]
      rfl

theorem readText_of_escaped (h : Escaped s.toList ds) (rest : List Char) :
    readText (ds ++ '"' :: rest) = some (s, rest) := by
  rw [readText, readQuoted_of_escaped h, map_some, String.ofList_toList]

theorem exists_of_readQuoted {s : List Char} (h : readQuoted cs = some (s, rest)) :
    ∃ ds, cs = ds ++ '"' :: rest ∧ Escaped s ds := by
  fun_induction readQuoted cs generalizing s with
  | case1 =>
    cases h
    exact ⟨[], rfl, .nil⟩
  | case2 a b c d tail ih =>
    obtain ⟨char, hchar, h⟩ := Option.bind_eq_some_iff.1 h
    obtain ⟨⟨s', rest'⟩, htail, heq⟩ := Option.map_eq_some_iff.1 h
    cases heq
    obtain ⟨n, hn, hchar⟩ := Option.bind_eq_some_iff.1 hchar
    obtain ⟨ds, rfl, hds⟩ := ih htail
    rw [← charOf?_eq_some_iff.1 hchar] at hn
    exact ⟨'\\' :: 'u' :: [a, b, c, d] ++ ds, rfl, .point hn hds⟩
  | case3 l tail _ ih =>
    obtain ⟨char, hchar, h⟩ := Option.bind_eq_some_iff.1 h
    obtain ⟨⟨s', rest'⟩, htail, heq⟩ := Option.map_eq_some_iff.1 h
    cases heq
    obtain ⟨ds, rfl, hds⟩ := ih htail
    exact ⟨'\\' :: l :: ds, rfl, .letter (unletter?_eq_some_iff.1 hchar) hds⟩
  | case4 char tail hquote hpoint hletter hcontrol | case6 => cases h
  | case5 char tail hquote hpoint hletter hcontrol ih =>
    obtain ⟨⟨s', rest'⟩, htail, heq⟩ := Option.map_eq_some_iff.1 h
    cases heq
    obtain ⟨ds, hds, hescaped⟩ := ih htail
    have hbackslash : char ≠ '\\' := by
      rintro rfl
      cases tail with
      | nil => cases htail
      | cons l tail => exact hletter l tail rfl rfl
    refine ⟨char :: ds, by rw [hds, List.cons_append], ?_⟩
    exact .plain hquote hbackslash (by omega) hescaped

theorem exists_of_readText (h : readText cs = some (s, rest)) :
    ∃ ds, cs = ds ++ '"' :: rest ∧ Escaped s.toList ds := by
  obtain ⟨⟨s', rest'⟩, hread, heq⟩ := map_eq_some_iff.1 h
  cases heq
  rw [String.toList_ofList]
  exact exists_of_readQuoted hread

/-! ### Numbers -/

/-- A text that does not continue a number. -/
def DigitFree (rest : List Char) : Prop :=
  ∀ c ∈ rest.head?, c.isDigit = false

theorem digitFree_cons (h : c.isDigit = false) (rest : List Char) : DigitFree (c :: rest) := by
  rintro _ ⟨⟩
  exact h

theorem readDigits_of_digits (h : Digits n ds) (hrest : DigitFree rest) :
    readDigits (ds ++ rest) = some (n, rest) := by
  have htake : (ds ++ rest).takeWhile Char.isDigit = ds := by
    rw [takeWhile_append_of_pos h.digit]
    cases rest with
    | nil => simp
    | cons c rest => simp [hrest c rfl]
  have hdrop : (ds ++ rest).dropWhile Char.isDigit = rest := by
    rw [dropWhile_append_of_pos h.digit]
    cases rest with
    | nil => rfl
    | cons c rest => simp [hrest c rfl]
  have hzero : (ds.head? == some '0' && ds != ['0']) = false := by
    cases hhead : ds.head? == some '0' with
    | false => rfl
    | true => rw [h.leading (eq_of_beq hhead)]; rfl
  have hempty : ds.isEmpty = false := by simpa using h.nonempty
  simp only [readDigits, htake, hdrop, hzero, hempty, h.value, Bool.or_self, Bool.false_eq_true,
    if_false]

theorem exists_of_readDigits (h : readDigits cs = some (n, rest)) :
    ∃ ds, cs = ds ++ rest ∧ Digits n ds := by
  unfold readDigits at h
  dsimp only at h
  split at h
  case isTrue => cases h
  case isFalse hds =>
    cases h
    simp only [Bool.or_eq_true, Bool.and_eq_true, not_or, not_and, List.isEmpty_iff, beq_iff_eq,
      bne_iff_ne, ne_eq, not_not] at hds
    refine ⟨cs.takeWhile Char.isDigit, takeWhile_append_dropWhile.symm, ?_, rfl, hds.1, hds.2⟩
    exact List.all_eq_true.1 all_takeWhile

theorem readNumber_of_numeral {n : Int} (h : Numeral n ds) (hrest : DigitFree rest) :
    readNumber (ds ++ rest) = some (n, rest) := by
  cases h with
  | @natural n ds h =>
    have hread := readDigits_of_digits h hrest
    unfold readNumber
    split
    case h_1 tail heq =>
      -- A number that starts with a digit does not start with a sign.
      obtain ⟨d, ds, rfl⟩ := exists_cons_of_ne_nil h.nonempty
      obtain ⟨rfl, -⟩ := List.cons.inj heq
      exact absurd (h.digit '-' mem_cons_self) (by decide)
    case h_2 => rw [hread]; rfl
  | @negative n ds h =>
    have hread := readDigits_of_digits h hrest
    rw [cons_append, readNumber, hread]

theorem exists_of_readNumber {n : Int} (h : readNumber cs = some (n, rest)) :
    ∃ ds, cs = ds ++ rest ∧ Numeral n ds := by
  unfold readNumber at h
  split at h
  case h_1 tail =>
    split at h
    case h_1 m rest' hread =>
      cases h
      obtain ⟨ds, rfl, hds⟩ := exists_of_readDigits hread
      exact ⟨'-' :: ds, rfl, .negative hds⟩
    case h_2 => cases h
  case h_2 =>
    obtain ⟨⟨m, rest'⟩, hread, heq⟩ := map_eq_some_iff.1 h
    cases heq
    obtain ⟨ds, rfl, hds⟩ := exists_of_readDigits hread
    exact ⟨ds, rfl, .natural hds⟩

/-! ### Values -/

theorem Numeral.head {n : Int} (h : Numeral n ds) :
    ∃ c cs, ds = c :: cs ∧ (c = '-' ∨ c.isDigit) := by
  cases h with
  | @natural n ds h =>
    obtain ⟨d, ds, rfl⟩ := exists_cons_of_ne_nil h.nonempty
    exact ⟨d, ds, rfl, .inr (h.digit d mem_cons_self)⟩
  | @negative n ds h => exact ⟨'-', ds, rfl, .inl rfl⟩

theorem ne_of_sign_or_digit {d : Char} (h : c = '-' ∨ c.isDigit)
    (hd : d ∈ ['t', 'f', '"', '[', ']', '\x7b']) : c ≠ d := by
  have hnone : ∀ d ∈ ['t', 'f', '"', '[', ']', '\x7b'], d ≠ '-' ∧ d.isDigit = false := by simp
  rintro rfl
  obtain ⟨hsign, hdigit⟩ := hnone c hd
  rcases h with h | h
  · exact hsign h
  · rw [hdigit] at h
    cases h

theorem readScalar_of_numeral {n : Int} (h : Numeral n ds) (hrest : DigitFree rest) :
    readScalar (ds ++ rest) = some (.number n, rest) := by
  have hread := readNumber_of_numeral h hrest
  obtain ⟨c, cs, rfl, hc⟩ := h.head
  have ht : c ≠ 't' := ne_of_sign_or_digit hc (by decide)
  have hf : c ≠ 'f' := ne_of_sign_or_digit hc (by decide)
  rw [readScalar, hread]
  · rfl
  · intro _ heq
    exact ht (List.cons.inj heq).1
  · intro _ heq
    exact hf (List.cons.inj heq).1

theorem exists_of_readScalar (h : readScalar cs = some (j, rest)) :
    ∃ ds, cs = ds ++ rest ∧ Spells j ds := by
  unfold readScalar at h
  split at h
  case h_1 =>
    cases h
    exact ⟨_, rfl, .true⟩
  case h_2 =>
    cases h
    exact ⟨_, rfl, .false⟩
  case h_3 =>
    obtain ⟨⟨n, rest'⟩, hread, heq⟩ := map_eq_some_iff.1 h
    cases heq
    obtain ⟨ds, rfl, hds⟩ := exists_of_readNumber hread
    exact ⟨ds, rfl, .number hds⟩

/-- A value is not empty, and it does not start like the end of a list. -/
theorem Spells.head {j : Json} {cs : List Char} (h : Spells j cs) :
    ∃ c ds, cs = c :: ds ∧ c ≠ ']' := by
  cases h with
  | true | false | text h | list h | object h => exact ⟨_, _, rfl, by decide⟩
  | number h =>
    obtain ⟨c, cs, rfl, hc⟩ := h.head
    exact ⟨c, cs, rfl, ne_of_sign_or_digit hc (by decide)⟩

theorem SpellsItems.head {j : Json} {items : List Json} {cs : List Char}
    (h : SpellsItems (j :: items) cs) : ∃ c ds, cs = c :: ds ∧ c ≠ ']' := by
  cases h with
  | last h => exact h.head
  | cons h hrest =>
    obtain ⟨c, ds, rfl, hc⟩ := h.head
    exact ⟨c, _, rfl, hc⟩

theorem SpellsFields.head {e : String × Json} (h : SpellsFields (e :: fields) cs) :
    ∃ ds, cs = '"' :: ds := by
  cases h with
  | last | cons => exact ⟨_, rfl⟩

theorem readUnless_of_ne (h : c ≠ close) (read : Reader (List α)) (rest : List Char) :
    readUnless close read (c :: rest) = read (c :: rest) :=
  if_neg h

/-- Spelled values of bounded length are read, whatever follows them. -/
def ReadsValues (n : Nat) : Prop :=
  ∀ ⦃j cs rest⦄, Spells j cs → cs.length ≤ n → DigitFree rest →
    readValue n (cs ++ rest) = some (j, rest)

/-- Spelled items of bounded length are read up to the bracket behind them. -/
def ReadsItems (n : Nat) : Prop :=
  ∀ ⦃j items cs⦄ (rest : List Char), SpellsItems (j :: items) cs → cs.length < n →
    readItems n (cs ++ ']' :: rest) = some (j :: items, rest)

/-- Spelled fields of bounded length are read up to the brace behind them. -/
def ReadsFields (n : Nat) : Prop :=
  ∀ ⦃e fields cs⦄ (rest : List Char), SpellsFields (e :: fields) cs → cs.length < n →
    readFields n (cs ++ '\x7d' :: rest) = some (e :: fields, rest)

theorem ReadsItems.readUnless (h : ReadsItems n) {items : List Json} (hitems : SpellsItems items cs)
    (hn : cs.length < n) (rest : List Char) :
    readUnless ']' (readItems n) (cs ++ ']' :: rest) = some (items, rest) := by
  cases items with
  | nil =>
    cases hitems
    rfl
  | cons j items =>
    have hread := h rest hitems hn
    obtain ⟨c, ds, rfl, hc⟩ := hitems.head
    rw [List.cons_append] at hread ⊢
    rw [readUnless_of_ne hc, hread]

theorem ReadsFields.readUnless (h : ReadsFields n) (hfields : SpellsFields fields cs)
    (hn : cs.length < n) (rest : List Char) :
    readUnless '\x7d' (readFields n) (cs ++ '\x7d' :: rest) = some (fields, rest) := by
  cases fields with
  | nil =>
    cases hfields
    rfl
  | cons e fields =>
    have hread := h rest hfields hn
    obtain ⟨ds, rfl⟩ := hfields.head
    rw [List.cons_append] at hread ⊢
    rw [readUnless_of_ne (by decide), hread]

theorem readsValues_succ (hitems : ReadsItems n) (hfields : ReadsFields n) :
    ReadsValues (n + 1) := by
  intro j cs rest h hn hrest
  cases h with
  | true | false => rfl
  | number h =>
    have hread := readScalar_of_numeral h hrest
    obtain ⟨c, ds, rfl, hc⟩ := h.head
    rw [List.cons_append] at hread ⊢
    rw [readValue, if_neg (ne_of_sign_or_digit hc (by decide)),
      if_neg (ne_of_sign_or_digit hc (by decide)), if_neg (ne_of_sign_or_digit hc (by decide)),
      hread]
  | @text s ds h =>
    rw [List.append_assoc, List.cons_append, readValue]
    exact congrArg (Option.map _) (readText_of_escaped h rest)
  | @list items ds h =>
    simp only [List.length_append, List.length_cons, List.length_nil] at hn
    rw [List.append_assoc, List.cons_append, readValue]
    exact congrArg (Option.map _) (hitems.readUnless h (by omega) rest)
  | @object fields ds h =>
    simp only [List.length_append, List.length_cons, List.length_nil] at hn
    rw [List.append_assoc, List.cons_append, readValue]
    exact congrArg (Option.map _) (hfields.readUnless h (by omega) rest)

theorem readsItems_succ (hvalues : ReadsValues n) (hitems : ReadsItems n) : ReadsItems (n + 1) := by
  intro j items cs rest h hn
  cases h with
  | last h =>
    rw [readItems, hvalues h (by omega) (digitFree_cons (by decide) rest)]
    rfl
  | @cons _ k items cs ds h hrest =>
    simp only [List.length_append, List.length_cons] at hn
    have hcomma := digitFree_cons (c := ',') (by decide) (ds ++ ']' :: rest)
    rw [List.append_assoc, List.cons_append, readItems, hvalues h (by omega) hcomma]
    exact congrArg (Option.map _) (hitems rest hrest (by omega))

theorem readsFields_succ (hvalues : ReadsValues n) (hfields : ReadsFields n) :
    ReadsFields (n + 1) := by
  intro e fields cs rest h hn
  cases h with
  | @last key j ks cs hkey h =>
    simp only [List.length_append, List.length_cons, List.length_nil] at hn
    have hread := hvalues h (by omega) (digitFree_cons (c := '\x7d') (by decide) rest)
    simp only [List.cons_append, List.append_assoc, List.nil_append, readFields,
      readText_of_escaped hkey, Option.bind_some, hread]
  | @cons key j next fields ks cs ds hkey h hnext =>
    simp only [List.length_append, List.length_cons, List.length_nil] at hn
    have hread := hvalues h (by omega)
      (digitFree_cons (c := ',') (by decide) (ds ++ '\x7d' :: rest))
    have hrest := hfields rest hnext (by omega)
    simp only [List.cons_append, List.append_assoc, List.nil_append, readFields,
      readText_of_escaped hkey, Option.bind_some, hread, hrest, Option.map_some]

/-- The length of a text bounds what can be open in it. -/
theorem reads (n : Nat) : ReadsValues n ∧ ReadsItems n ∧ ReadsFields n := by
  induction n with
  | zero =>
    refine ⟨fun j cs rest h hn => ?_, fun _ _ _ _ _ hn => ?_, fun _ _ _ _ _ hn => ?_⟩
    · obtain ⟨c, ds, rfl, -⟩ := h.head
      simp at hn
    · omega
    · omega
  | succ n ih =>
    obtain ⟨hvalues, hitems, hfields⟩ := ih
    exact ⟨readsValues_succ hitems hfields, readsItems_succ hvalues hitems,
      readsFields_succ hvalues hfields⟩

/-! ### Soundness -/

/-- A value that is read is spelled by the characters that are taken. -/
def SpellsValues (n : Nat) : Prop :=
  ∀ ⦃cs j rest⦄, readValue n cs = some (j, rest) → ∃ ds, cs = ds ++ rest ∧ Spells j ds

/-- Items that are read are spelled, and there is at least one. -/
def SpellsLists (n : Nat) : Prop :=
  ∀ ⦃cs items rest⦄, readItems n cs = some (items, rest) →
    ∃ ds, cs = ds ++ ']' :: rest ∧ SpellsItems items ds ∧ items ≠ []

/-- Fields that are read are spelled, and there is at least one. -/
def SpellsObjects (n : Nat) : Prop :=
  ∀ ⦃cs fields rest⦄, readFields n cs = some (fields, rest) →
    ∃ ds, cs = ds ++ '\x7d' :: rest ∧ SpellsFields fields ds ∧ fields ≠ []

theorem exists_of_readUnless {read : Reader (List α)} {P : List α → List Char → Prop}
    (hnil : P [] []) (hread : ∀ ⦃cs items rest⦄, read cs = some (items, rest) →
      ∃ ds, cs = ds ++ close :: rest ∧ P items ds ∧ items ≠ []) {items : List α}
    (h : readUnless close read cs = some (items, rest)) :
    ∃ ds, cs = ds ++ close :: rest ∧ P items ds := by
  unfold readUnless at h
  split at h
  case h_1 c tail =>
    split at h
    case isTrue hc =>
      cases h
      exact ⟨[], by rw [hc]; rfl, hnil⟩
    case isFalse =>
      obtain ⟨ds, hds, hP, -⟩ := hread h
      exact ⟨ds, hds, hP⟩
  case h_2 => cases h

theorem spellsValues_succ (hitems : SpellsLists n) (hfields : SpellsObjects n) :
    SpellsValues (n + 1) := by
  intro cs j rest h
  cases cs with
  | nil => simp [readValue] at h
  | cons c cs =>
    rw [readValue] at h
    split at h
    case isTrue hc =>
      obtain ⟨⟨s, rest'⟩, hread, heq⟩ := Option.map_eq_some_iff.1 h
      cases heq
      obtain ⟨ds, rfl, hds⟩ := exists_of_readText hread
      exact ⟨'"' :: ds ++ ['"'], by rw [hc]; simp, .text hds⟩
    case isFalse hquote =>
    split at h
    case isTrue hc =>
      obtain ⟨⟨items, rest'⟩, hread, heq⟩ := Option.map_eq_some_iff.1 h
      cases heq
      obtain ⟨ds, rfl, hds⟩ := exists_of_readUnless .nil hitems hread
      exact ⟨'[' :: ds ++ [']'], by rw [hc]; simp, .list hds⟩
    case isFalse hlist =>
    split at h
    case isTrue hc =>
      obtain ⟨⟨fields, rest'⟩, hread, heq⟩ := Option.map_eq_some_iff.1 h
      cases heq
      obtain ⟨ds, rfl, hds⟩ := exists_of_readUnless .nil hfields hread
      exact ⟨'\x7b' :: ds ++ ['\x7d'], by rw [hc]; simp, .object hds⟩
    case isFalse => exact exists_of_readScalar h

theorem spellsLists_succ (hvalues : SpellsValues n) (hitems : SpellsLists n) :
    SpellsLists (n + 1) := by
  intro cs items rest h
  obtain ⟨⟨j, tail⟩, hread, hnext⟩ := Option.bind_eq_some_iff.1 h
  obtain ⟨ds, rfl, hds⟩ := hvalues hread
  dsimp only at hnext
  split at hnext
  case h_1 tail =>
    obtain ⟨⟨items', rest'⟩, hread', heq⟩ := Option.map_eq_some_iff.1 hnext
    cases heq
    obtain ⟨ds', rfl, hds', hne⟩ := hitems hread'
    obtain ⟨k, items', rfl⟩ := List.exists_cons_of_ne_nil hne
    exact ⟨ds ++ ',' :: ds', by simp, .cons hds hds', by simp⟩
  case h_2 tail =>
    cases hnext
    exact ⟨ds, rfl, .last hds, by simp⟩
  case h_3 => cases hnext

theorem spellsObjects_succ (hvalues : SpellsValues n) (hfields : SpellsObjects n) :
    SpellsObjects (n + 1) := by
  intro cs fields rest h
  unfold readFields at h
  split at h
  case h_1 => cases h
  case h_3 => cases h
  case h_2 n' cs hn' =>
    cases hn'
    obtain ⟨⟨key, tail⟩, hkey, hcolon⟩ := Option.bind_eq_some_iff.1 h
    obtain ⟨ks, rfl, hks⟩ := exists_of_readText hkey
    dsimp only at hcolon
    split at hcolon
    case h_2 => cases hcolon
    case h_1 tail =>
      obtain ⟨⟨j, tail'⟩, hread, hnext⟩ := Option.bind_eq_some_iff.1 hcolon
      obtain ⟨ds, rfl, hds⟩ := hvalues hread
      dsimp only at hnext
      split at hnext
      case h_1 tail' =>
        obtain ⟨⟨fields', rest'⟩, hread', heq⟩ := Option.map_eq_some_iff.1 hnext
        cases heq
        obtain ⟨ds', rfl, hds', hne⟩ := hfields hread'
        obtain ⟨next, fields', rfl⟩ := List.exists_cons_of_ne_nil hne
        exact ⟨'"' :: ks ++ ['"'] ++ ':' :: ds ++ ',' :: ds', by simp, .cons hks hds hds', by simp⟩
      case h_2 tail' =>
        cases hnext
        exact ⟨'"' :: ks ++ ['"'] ++ ':' :: ds, by simp, .last hks hds, by simp⟩
      case h_3 => cases hnext

theorem spells_of_read (n : Nat) : SpellsValues n ∧ SpellsLists n ∧ SpellsObjects n := by
  induction n with
  | zero => simp [SpellsValues, SpellsLists, SpellsObjects, readValue, readItems, readFields]
  | succ n ih =>
    obtain ⟨hvalues, hitems, hfields⟩ := ih
    exact ⟨spellsValues_succ hitems hfields, spellsLists_succ hvalues hitems,
      spellsObjects_succ hvalues hfields⟩

/-- A text is read as a value exactly if it spells the value. -/
theorem read?_eq_some_iff : read? cs = some j ↔ Spells j cs := by
  constructor
  · intro h
    obtain ⟨⟨j', rest⟩, hread, h⟩ := bind_eq_some_iff.1 h
    dsimp only at h
    split at h
    case isFalse => cases h
    case isTrue hrest =>
      cases h
      obtain ⟨ds, hds, hspells⟩ := (spells_of_read cs.length).1 hread
      rw [List.isEmpty_iff.1 hrest, append_nil] at hds
      rwa [hds]
  · intro h
    have hread : readValue cs.length (cs ++ []) = some (j, []) :=
      (reads cs.length).1 h (Nat.le_refl _) (by simp [DigitFree])
    rw [append_nil] at hread
    rw [read?, hread]
    rfl

end Diagram.Json
