import Diagram.Proofs.Text.Decoded
import Mathlib.Data.List.Basic

/-!
# The glyphs of a text

The bytes of a text are read back as its characters: a character is written as a sequence of one
to four bytes, and such a sequence is one glyph, whatever follows it.

Main statement: `chars_decode_toUTF8`.
-/

namespace Diagram.Text.Glyph

open List

section Leads

variable {a b c d : UInt8}

theorem isContinuation_iff : isContinuation b ↔ 0x80 ≤ b.toNat ∧ b.toNat ≤ 0xBF := by
  simp [isContinuation, UInt8.le_iff_toNat_le]

theorem leadsTwo_iff : leadsTwo a ↔ 0xC2 ≤ a.toNat ∧ a.toNat ≤ 0xDF := by
  simp [leadsTwo, UInt8.le_iff_toNat_le]

theorem leadsThree_bounds (h : leadsThree a b) : 0xE0 ≤ a.toNat ∧ a.toNat ≤ 0xEF := by
  simp only [leadsThree, Bool.and_eq_true, decide_eq_true_eq, UInt8.le_iff_toNat_le] at h
  exact h.1.1.1

theorem leadsFour_bounds (h : leadsFour a b) : 0xF0 ≤ a.toNat ∧ a.toNat ≤ 0xF4 := by
  simp only [leadsFour, Bool.and_eq_true, decide_eq_true_eq, UInt8.le_iff_toNat_le] at h
  exact h.1.1.1

theorem leadsThree_eq_false (h : ¬(0xE0 ≤ a.toNat ∧ a.toNat ≤ 0xEF)) : leadsThree a b = false :=
  Bool.eq_false_iff.2 fun hlead => h (leadsThree_bounds hlead)

theorem leadsFour_eq_false (h : ¬(0xF0 ≤ a.toNat ∧ a.toNat ≤ 0xF4)) : leadsFour a b = false :=
  Bool.eq_false_iff.2 fun hlead => h (leadsFour_bounds hlead)

theorem width_eq_one (h : a.toNat < 0x80) (rest : List UInt8) : width a rest = 1 := by
  have htwo : leadsTwo a = false := Bool.eq_false_iff.2 fun hlead => by
    have := (leadsTwo_iff.1 hlead).1
    omega
  have hthree : ∀ b, leadsThree a b = false := fun _ => leadsThree_eq_false (by omega)
  have hfour : ∀ b, leadsFour a b = false := fun _ => leadsFour_eq_false (by omega)
  unfold width
  split <;> simp [htwo, hthree, hfour]

theorem width_eq_two (ha : leadsTwo a) (hb : isContinuation b) (rest : List UInt8) :
    width a (b :: rest) = 2 := by
  have hbounds := leadsTwo_iff.1 ha
  have hthree : leadsThree a b = false := leadsThree_eq_false (by omega)
  have hfour : leadsFour a b = false := leadsFour_eq_false (by omega)
  match rest with
  | [] => simp [width, ha, hb]
  | [_] => simp [width, ha, hb, hthree]
  | _ :: _ :: _ => simp [width, ha, hb, hthree, hfour]

theorem width_eq_three (hab : leadsThree a b) (hc : isContinuation c)
    (rest : List UInt8) : width a (b :: c :: rest) = 3 := by
  have hbounds := leadsThree_bounds hab
  have hfour : leadsFour a b = false := leadsFour_eq_false (by omega)
  cases rest with
  | nil => simp [width, hab, hc]
  | cons d rest => simp [width, hab, hc, hfour]

theorem width_eq_four (hab : leadsFour a b) (hc : isContinuation c)
    (hd : isContinuation d) (rest : List UInt8) : width a (b :: c :: d :: rest) = 4 := by
  simp [width, hab, hc, hd]

/-- A sequence of the width of a glyph is read as that glyph. -/
theorem decode_append_of_width {tail : List UInt8} (rest : List UInt8)
    (h : width a (tail ++ rest) = tail.length + 1) :
    decode (a :: tail ++ rest) = ⟨charOf (a :: tail), a :: tail⟩ :: decode rest := by
  rw [cons_append, decode_cons, first, h]
  simp

end Leads

theorem toNat_ofNat_of_lt {n : Nat} (h : n < 256) : (UInt8.ofNat n).toNat = n := by
  exact Nat.mod_eq_of_lt h

section Sequences

variable {v : Nat} {a b c d : UInt8} (rest : List UInt8)

theorem decode_one (h : v ≤ 127) (ha : a.toNat = v) :
    decode ([a] ++ rest) = ⟨Char.ofNat v, [a]⟩ :: decode rest := by
  have hlt : a < 0x80 := by
    rw [UInt8.lt_iff_toNat_lt, ha]
    exact Nat.lt_succ_of_le h
  rw [decode_append_of_width rest (width_eq_one (by omega) _), charOf, if_pos hlt, ha]

theorem decode_two (hlow : 127 < v) (h : v ≤ 2047) (ha : a.toNat = v / 64 % 32 + 192)
    (hb : b.toNat = v % 64 + 128) :
    decode ([a, b] ++ rest) = ⟨Char.ofNat v, [a, b]⟩ :: decode rest := by
  have hlead : leadsTwo a = true := leadsTwo_iff.2 (by omega)
  have hcontinues : isContinuation b = true := isContinuation_iff.2 (by omega)
  have hv : a.toNat % 32 * 64 + payload b = v := by
    unfold payload
    omega
  rw [decode_append_of_width rest (width_eq_two hlead hcontinues _), charOf, hv]

theorem decode_three (hlow : 2047 < v) (h : v ≤ 65535) (hvalid : v < 0xD800 ∨ 0xDFFF < v)
    (ha : a.toNat = v / 4096 % 16 + 224) (hb : b.toNat = v / 64 % 64 + 128)
    (hc : c.toNat = v % 64 + 128) :
    decode ([a, b, c] ++ rest) = ⟨Char.ofNat v, [a, b, c]⟩ :: decode rest := by
  have hsecond : isContinuation b = true := isContinuation_iff.2 (by omega)
  have hthird : isContinuation c = true := isContinuation_iff.2 (by omega)
  -- Neither overlong, as `v` needs three bytes, nor a surrogate.
  have hlead : leadsThree a b = true := by
    simp only [leadsThree, hsecond, Bool.and_eq_true, Bool.or_eq_true, decide_eq_true_eq,
      bne_iff_ne, UInt8.le_iff_toNat_le, ne_eq, ← UInt8.toNat_inj, UInt8.reduceToNat, and_true]
    omega
  have hv : (a.toNat % 16 * 64 + payload b) * 64 + payload c = v := by
    unfold payload
    omega
  rw [decode_append_of_width rest (width_eq_three hlead hthird _), charOf, hv]

theorem decode_four (hlow : 65535 < v) (h : v < 0x110000) (ha : a.toNat = v / 262144 % 8 + 240)
    (hb : b.toNat = v / 4096 % 64 + 128) (hc : c.toNat = v / 64 % 64 + 128)
    (hd : d.toNat = v % 64 + 128) :
    decode ([a, b, c, d] ++ rest) = ⟨Char.ofNat v, [a, b, c, d]⟩ :: decode rest := by
  have hsecond : isContinuation b = true := isContinuation_iff.2 (by omega)
  have hthird : isContinuation c = true := isContinuation_iff.2 (by omega)
  have hfourth : isContinuation d = true := isContinuation_iff.2 (by omega)
  have hlead : leadsFour a b = true := by
    simp only [leadsFour, hsecond, Bool.and_eq_true, Bool.or_eq_true, decide_eq_true_eq,
      bne_iff_ne, UInt8.le_iff_toNat_le, ne_eq, ← UInt8.toNat_inj, UInt8.reduceToNat, and_true]
    omega
  have hv : ((a.toNat % 8 * 64 + payload b) * 64 + payload c) * 64 + payload d = v := by
    unfold payload
    omega
  rw [decode_append_of_width rest (width_eq_four hlead hthird hfourth _), charOf, hv]

end Sequences

theorem decode_utf8EncodeChar (c : Char) (rest : List UInt8) :
    decode (String.utf8EncodeChar c ++ rest) = ⟨c, String.utf8EncodeChar c⟩ :: decode rest := by
  have hvalid : c.val.toNat < 0xD800 ∨ 0xDFFF < c.val.toNat ∧ c.val.toNat < 0x110000 := c.valid
  have hback : Char.ofNat c.val.toNat = c := Char.ofNat_toNat c
  unfold String.utf8EncodeChar
  generalize c.val.toNat = v at hvalid hback
  subst hback
  dsimp only
  split
  case isTrue hone => exact decode_one rest hone (toNat_ofNat_of_lt (by omega))
  have hbyte : ∀ n, (UInt8.ofNat (n % 64 + 128)).toNat = n % 64 + 128 :=
    fun n => toNat_ofNat_of_lt (by omega)
  split
  case isTrue htwo =>
    exact decode_two rest (by omega) htwo (toNat_ofNat_of_lt (by omega)) (hbyte v)
  split
  case isTrue hthree =>
    exact decode_three rest (by omega) hthree (by omega) (toNat_ofNat_of_lt (by omega))
      (hbyte (v / 64)) (hbyte v)
  case isFalse hthree =>
    exact decode_four rest (by omega) (by omega) (toNat_ofNat_of_lt (by omega)) (hbyte (v / 4096))
      (hbyte (v / 64)) (hbyte v)

theorem toList_loop_eq (bytes : ByteArray) (i : Nat) (taken : List UInt8) :
    ByteArray.toList.loop bytes i taken = taken.reverse ++ bytes.data.toList.drop i := by
  fun_induction ByteArray.toList.loop bytes i taken with
  | case1 i taken h ih =>
    have hi : i < bytes.data.toList.length := by simpa using h
    have hget : bytes.get! i = bytes.data.toList[i] := by simp [ByteArray.get!, h]
    rw [ih, drop_eq_getElem_cons hi, reverse_cons, append_assoc, hget]
    rfl
  | case2 i taken h =>
    rw [drop_eq_nil_of_le (by simpa using h), append_nil]

theorem toUTF8_toList (s : String) : s.toUTF8.toList = s.toList.flatMap String.utf8EncodeChar := by
  have hencode : s.toUTF8 = s.toList.utf8Encode := String.utf8Encode_toList.symm
  rw [hencode, List.utf8Encode, ByteArray.toList, toList_loop_eq, toList_data_toByteArray]
  rfl

/-- The characters of a text are read back from its bytes. -/
theorem chars_decode_toUTF8 (s : String) : (decode s.toUTF8.toList).map Glyph.char = s.toList := by
  rw [toUTF8_toList]
  induction s.toList with
  | nil => rfl
  | cons c cs ih => rw [flatMap_cons, decode_utf8EncodeChar, map_cons, ih]

end Diagram.Text.Glyph
