import Diagram.Json

/-!
# Spellings of JSON values

The grammar of the interchange format, as a relation between values and texts without blanks.
Between quotes a character stands for itself, unless it is a quote, a backslash or a control
character, or it is written by a letter or by the four digits of its code point.

Main statement: `Json.spells_chars`.
-/

namespace Diagram.Json

/-- The decimal digits of a number, without leading zeros. -/
structure Digits (n : Nat) (ds : List Char) : Prop where
  digit : ∀ d ∈ ds, d.isDigit = true
  value : Nat.ofDigitChars 10 ds 0 = n
  nonempty : ds ≠ []
  leading : ds.head? = some '0' → ds = ['0']

/-- The spelling of an integer. -/
inductive Numeral : Int → List Char → Prop
  | natural {n ds} (h : Digits n ds) : Numeral (.ofNat n) ds
  | negative {n ds} (h : Digits (n + 1) ds) : Numeral (.negSucc n) ('-' :: ds)

def letters : List (Char × Char) :=
  [('"', '"'), ('\\', '\\'), ('/', '/'), ('\x08', 'b'), ('\x0c', 'f'), ('\n', 'n'), ('\r', 'r'),
    ('\t', 't')]

/-- The value of a hexadecimal digit in lower case. -/
def hexDigit? (c : Char) : Option Nat :=
  let i := "0123456789abcdef".toList.idxOf c
  if i < 16 then some i else none

/-- The number that four hexadecimal digits write. -/
def codePoint? : List Char → Option Nat
  | [a, b, c, d] => do
    return 4096 * (← hexDigit? a) + 256 * (← hexDigit? b) + 16 * (← hexDigit? c) + (← hexDigit? d)
  | _ => none

/-- The spelling of some characters between quotes. -/
inductive Escaped : List Char → List Char → Prop
  | nil : Escaped [] []
  | plain {c cs ds} (hquote : c ≠ '"') (hbackslash : c ≠ '\\') (hcontrol : 0x20 ≤ c.toNat)
      (h : Escaped cs ds) : Escaped (c :: cs) (c :: ds)
  | letter {c l cs ds} (hl : (c, l) ∈ letters) (h : Escaped cs ds) :
      Escaped (c :: cs) ('\\' :: l :: ds)
  | point {c cs digits ds} (hdigits : codePoint? digits = some c.toNat) (h : Escaped cs ds) :
      Escaped (c :: cs) ('\\' :: 'u' :: digits ++ ds)

mutual

/-- The spelling of a value. -/
inductive Spells : Json → List Char → Prop
  | true : Spells (.bool true) "true".toList
  | false : Spells (.bool false) "false".toList
  | number {n ds} (h : Numeral n ds) : Spells (.number n) ds
  | text {s cs} (h : Escaped s.toList cs) : Spells (.text s) ('"' :: cs ++ ['"'])
  | list {items cs} (h : SpellsItems items cs) : Spells (.list items) ('[' :: cs ++ [']'])
  | object {fields cs} (h : SpellsFields fields cs) :
      Spells (.object fields) ('\x7b' :: cs ++ ['\x7d'])

/-- The spelling of items with commas between them. -/
inductive SpellsItems : List Json → List Char → Prop
  | nil : SpellsItems [] []
  | last {j cs} (h : Spells j cs) : SpellsItems [j] cs
  | cons {j k rest cs ds} (h : Spells j cs) (hrest : SpellsItems (k :: rest) ds) :
      SpellsItems (j :: k :: rest) (cs ++ ',' :: ds)

/-- The spelling of fields with commas between them. -/
inductive SpellsFields : List (String × Json) → List Char → Prop
  | nil : SpellsFields [] []
  | last {key j ks cs} (hkey : Escaped key.toList ks) (h : Spells j cs) :
      SpellsFields [(key, j)] ('"' :: ks ++ ['"'] ++ ':' :: cs)
  | cons {key j next rest ks cs ds} (hkey : Escaped key.toList ks) (h : Spells j cs)
      (hrest : SpellsFields (next :: rest) ds) :
      SpellsFields ((key, j) :: next :: rest) ('"' :: ks ++ ['"'] ++ ':' :: cs ++ ',' :: ds)

end

theorem head?_toDigits_ne_zero {n : Nat} (h : n ≠ 0) : (Nat.toDigits 10 n).head? ≠ some '0' := by
  induction n using Nat.strongRecOn with
  | ind n ih =>
    by_cases hlt : n < 10
    · rw [Nat.toDigits_of_lt_base hlt]
      have hsmall : ∀ m < 10, m ≠ 0 → [Nat.digitChar m].head? ≠ some '0' := by decide
      exact hsmall n hlt h
    · have hhead := ih (n / 10) (by omega) (by omega)
      rw [Nat.toDigits_of_base_le (by decide) (by omega)]
      cases hdigits : (Nat.toDigits 10 (n / 10)).head? with
      | none => exact absurd (List.head?_eq_none_iff.1 hdigits) Nat.toDigits_ne_nil
      | some d => simpa [hdigits] using hhead

theorem digits_toDigits (n : Nat) : Digits n (Nat.toDigits 10 n) where
  digit _ hd := Nat.isDigit_of_mem_toDigits (by decide) (by decide) hd
  value := Nat.ofDigitChars_ten_toDigits
  nonempty := Nat.toDigits_ne_nil
  leading hhead := by
    by_cases hn : n = 0
    · rw [hn]
      rfl
    · exact absurd hhead (head?_toDigits_ne_zero hn)

theorem numeral_toString (n : Int) : Numeral n (toString n).toList := by
  cases n with
  | ofNat n =>
    have htext : (toString (Int.ofNat n)).toList = Nat.toDigits 10 n := by
      show (Nat.repr n).toList = _
      rw [Nat.repr_eq_ofList_toDigits, String.toList_ofList]
    rw [htext]
    exact .natural (digits_toDigits n)
  | negSucc n =>
    have htext : (toString (Int.negSucc n)).toList = '-' :: Nat.toDigits 10 (n + 1) := by
      show ("-" ++ Nat.repr (n + 1)).toList = _
      rw [String.toList_append, Nat.repr_eq_ofList_toDigits, String.toList_ofList (l := _ :: _),
        String.toList_ofList]
      rfl
    rw [htext]
    exact .negative (digits_toDigits (n + 1))

theorem codePoint?_hex {n : Nat} (h : n < 0x20 ∨ n = 0x2028 ∨ n = 0x2029) :
    codePoint? (Text.Quoted.hex 4 n) = some n := by
  have hcontrol : ∀ m < 0x20, codePoint? (Text.Quoted.hex 4 m) = some m := by decide
  rcases h with hlt | rfl | rfl
  · exact hcontrol n hlt
  · decide
  · decide

/-- A character is written by a letter, by its code point or by itself. -/
theorem escape_cases (c : Char) :
    (∃ l, (c, l) ∈ letters ∧ escape c = ['\\', l]) ∨
    ((c.toNat < 0x20 ∨ c.toNat = 0x2028 ∨ c.toNat = 0x2029) ∧
      escape c = '\\' :: 'u' :: Text.Quoted.hex 4 c.toNat) ∨
    (c ≠ '"' ∧ c ≠ '\\' ∧ 0x20 ≤ c.toNat ∧ escape c = [c]) := by
  by_cases hletter : c ∈ ['"', '\\', '\x08', '\x0c', '\n', '\r', '\t']
  · simp only [List.mem_cons, List.not_mem_nil, or_false] at hletter
    rcases hletter with rfl | rfl | rfl | rfl | rfl | rfl | rfl
    all_goals exact .inl ⟨_, by simp [letters], rfl⟩
  · -- All tests for letters fail, and only the one for code points is left.
    simp only [List.mem_cons, List.not_mem_nil, or_false, not_or] at hletter
    obtain ⟨hquote, hbackslash, h8, hc, hn, hr, ht⟩ := hletter
    have hrest : escape c =
        if c.toNat < 0x20 || c.toNat = 0x2028 || c.toNat = 0x2029 then
          '\\' :: 'u' :: Text.Quoted.hex 4 c.toNat
        else [c] := by
      simp only [escape, if_neg, hquote, hbackslash, h8, hc, hn, hr, ht, not_false_eq_true]
    by_cases hpoint : c.toNat < 0x20 ∨ c.toNat = 0x2028 ∨ c.toNat = 0x2029
    · refine .inr (.inl ⟨hpoint, ?_⟩)
      rw [hrest, if_pos (by simpa [or_assoc] using hpoint)]
    · refine .inr (.inr ⟨hquote, hbackslash, by omega, ?_⟩)
      rw [hrest, if_neg (by simpa [or_assoc] using hpoint)]

/-- Escaping a character puts a spelling of it in front of the others. -/
theorem escaped_escape (c : Char) {cs ds : List Char} (h : Escaped cs ds) :
    Escaped (c :: cs) (escape c ++ ds) := by
  rcases escape_cases c with ⟨l, hl, heq⟩ | ⟨hpoint, heq⟩ | ⟨hquote, hbackslash, hcontrol, heq⟩
  · rw [heq]
    exact .letter hl h
  · rw [heq]
    exact .point (codePoint?_hex hpoint) h
  · rw [heq]
    exact .plain hquote hbackslash hcontrol h

theorem escaped_flatMap (cs : List Char) : Escaped cs (cs.flatMap escape) := by
  induction cs with
  | nil => exact .nil
  | cons c cs ih => exact escaped_escape c ih

mutual

theorem spells_chars : ∀ j : Json, Spells j j.chars
  | .bool true => .true
  | .bool false => .false
  | .number n => .number (numeral_toString n)
  | .text s => .text (escaped_flatMap s.toList)
  | .list items => .list (spellsItems_itemChars items)
  | .object fields => .object (spellsFields_fieldChars fields)

theorem spellsItems_itemChars : ∀ items : List Json, SpellsItems items (itemChars items)
  | [] => .nil
  | [j] => .last (spells_chars j)
  | j :: k :: rest => .cons (spells_chars j) (spellsItems_itemChars (k :: rest))

theorem spellsFields_fieldChars :
    ∀ fields : List (String × Json), SpellsFields fields (fieldChars fields)
  | [] => .nil
  | [(key, j)] => .last (escaped_flatMap key.toList) (spells_chars j)
  | (key, j) :: next :: rest =>
    .cons (escaped_flatMap key.toList) (spells_chars j) (spellsFields_fieldChars (next :: rest))

end

end Diagram.Json
