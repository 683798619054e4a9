import Diagram.Text.Glyph
import Mathlib.Tactic.SplitIfs

/-!
# Stretches of a decoded source

The glyphs of a byte string are read from left to right, each from at most four bytes.  A stretch
of them is what its own bytes are read as, and two byte strings that are joined are read one after
the other unless the second starts in the middle of a glyph.

Main statements: `decode_bytesOf_inside`, `decode_append`.
-/

namespace Diagram.Text.Glyph

open List

theorem bytesOf_append (gs hs : List Glyph) : bytesOf (gs ++ hs) = bytesOf gs ++ bytesOf hs := by
  simp [bytesOf]

theorem bytesOf_cons (g : Glyph) (gs : List Glyph) : bytesOf (g :: gs) = g.bytes ++ bytesOf gs := by
  simp [bytesOf]

theorem decodeAfter_eq (skip : Nat) (bytes : List UInt8) :
    decodeAfter skip bytes = decode (bytes.drop skip) := by
  induction bytes generalizing skip with
  | nil => cases skip <;> rfl
  | cons a rest ih =>
    cases skip with
    | zero => rfl
    | succ n => simpa [decodeAfter] using ih n

@[simp] theorem decode_nil : decode [] = [] := rfl

theorem decode_cons (a : UInt8) (rest : List UInt8) :
    decode (a :: rest) = first a rest :: decode (rest.drop (width a rest - 1)) := by
  rw [← decodeAfter_eq]
  rfl

theorem width_le (a : UInt8) (rest : List UInt8) : width a rest ≤ rest.length + 1 := by
  unfold width
  split
  · repeat' split
    all_goals simp
  · repeat' split
    all_goals simp
  · split <;> simp
  · simp

variable {a : UInt8} {rest more source : List UInt8} {before behind : List Glyph}

/-- The bytes behind a glyph do not matter for its width. -/
theorem width_append (h : width a (rest ++ more) ≤ rest.length + 1) :
    width a (rest ++ more) = width a rest := by
  match rest, more with
  | [], [] => rfl
  | [], m :: ms =>
    have hpos := width_pos a (m :: ms)
    have hone : width a ([] : List UInt8) = 1 := rfl
    simp only [nil_append, length_nil] at h ⊢
    omega
  | [b], [] => rfl
  | [b], [c] =>
    simp only [cons_append, nil_append, width, length_cons, length_nil] at h ⊢
    split_ifs at h ⊢ <;> simp_all
  | [b], c :: d :: _ =>
    simp only [cons_append, nil_append, width, length_cons, length_nil] at h ⊢
    split_ifs at h ⊢ <;> simp_all
  | [b, c], [] => rfl
  | [b, c], d :: _ =>
    simp only [cons_append, nil_append, width, length_cons, length_nil] at h ⊢
    split_ifs at h ⊢ <;> simp_all
  | b :: c :: d :: r, _ => rfl

/-- A glyph is read from its own bytes, whatever more of the source follows them. -/
theorem decode_first {tail near far : List UInt8}
    (h : width a (tail ++ near ++ far) = tail.length + 1) :
    decode (a :: (tail ++ near)) = first a (tail ++ near ++ far) :: decode near := by
  have hwidth : width a (tail ++ near) = tail.length + 1 := by
    have hle : width a (tail ++ near ++ far) ≤ (tail ++ near).length + 1 := by
      rw [length_append]
      omega
    rw [← width_append hle, h]
  have hfirst : first a (tail ++ near) = first a (tail ++ near ++ far) := by
    unfold first
    rw [h, hwidth]
    simp
  rw [decode_cons, hwidth, hfirst]
  simp

/-- The first glyphs of a source are read from their own bytes alone. -/
theorem decode_bytesOf_start (h : decode source = before ++ behind) :
    decode (bytesOf before) = before := by
  induction before generalizing source with
  | nil => rfl
  | cons g before ih =>
    cases source with
    | nil => simp at h
    | cons a rest =>
      rw [decode_cons, cons_append, List.cons.injEq] at h
      obtain ⟨hg, htail⟩ := h
      have hle := width_le a rest
      have hpos := width_pos a rest
      have hbytes : rest.drop (width a rest - 1) = bytesOf before ++ bytesOf behind := by
        rw [← bytesOf_append, ← htail, bytesOf_decode]
      have hsplit : rest.take (width a rest - 1) ++ bytesOf before ++ bytesOf behind = rest := by
        rw [append_assoc, ← hbytes, take_append_drop]
      have hwidth : width a (rest.take (width a rest - 1) ++ bytesOf before ++ bytesOf behind) =
          (rest.take (width a rest - 1)).length + 1 := by
        rw [hsplit, length_take]
        omega
      rw [bytesOf_cons, ← hg, first_bytes, cons_append, decode_first hwidth, hsplit,
        ih htail]

/-- The last glyphs of a source are read from their own bytes alone. -/
theorem decode_drop (h : decode source = before ++ behind) :
    decode (source.drop (bytesOf before).length) = behind := by
  induction before generalizing source with
  | nil => simpa [bytesOf] using h
  | cons g before ih =>
    cases source with
    | nil => simp at h
    | cons a rest =>
      rw [decode_cons, cons_append, List.cons.injEq] at h
      obtain ⟨hg, htail⟩ := h
      have hle := width_le a rest
      have hlength : (bytesOf (g :: before)).length =
          (width a rest - 1) + (bytesOf before).length + 1 := by
        rw [bytesOf_cons, ← hg, first_bytes, length_append, length_cons,
          length_take]
        omega
      rw [hlength, drop_succ_cons, ← drop_drop]
      exact ih htail

theorem decode_bytesOf_inside {inside : List Glyph}
    (h : decode source = before ++ (inside ++ behind)) : decode (bytesOf inside) = inside :=
  decode_bytesOf_start (decode_drop h)

theorem take_eq_bytesOf (h : decode source = before ++ behind) :
    source.take (bytesOf before).length = bytesOf before := by
  have hsource : source = bytesOf before ++ bytesOf behind := by
    rw [← bytesOf_append, ← h, bytesOf_decode]
  conv => lhs; rw [hsource]
  simp

/-- A byte that continues no glyph ends the glyph before it. -/
theorem width_le_of_not_continuation (h : ∀ b ∈ more.head?, isContinuation b = false) :
    width a (rest ++ more) ≤ rest.length + 1 := by
  match rest, more with
  | rest, [] => simpa using width_le a rest
  | [], m :: ms =>
    have hone : width a (m :: ms) = 1 := by
      unfold width leadsFour leadsThree
      split <;> simp_all
    simp [hone]
  | [b], m :: ms =>
    have hm : isContinuation m = false := h m rfl
    cases ms <;> simp only [cons_append, nil_append, width, hm] <;> split_ifs <;> simp_all
  | [b, c], m :: ms =>
    have hm : isContinuation m = false := h m rfl
    simp only [cons_append, nil_append, width, hm]
    split_ifs <;> simp_all
  | b :: c :: d :: r, m :: ms =>
    have hfour : width a (b :: c :: d :: (r ++ m :: ms)) ≤ 4 := by
      simp only [width]
      split_ifs <;> omega
    simp only [cons_append, length_cons]
    omega

/-- Two byte strings that are joined are read one after the other, unless the second starts in the
middle of a glyph. -/
theorem decode_append (as bs : List UInt8) (h : ∀ b ∈ bs.head?, isContinuation b = false) :
    decode (as ++ bs) = decode as ++ decode bs := by
  match as with
  | [] => rfl
  | a :: rest =>
    have hle : width a (rest ++ bs) ≤ rest.length + 1 := width_le_of_not_continuation h
    have hwidth := width_append hle
    have hrest := width_le a rest
    have hfirst : first a (rest ++ bs) = first a rest := by
      unfold first
      rw [hwidth, ← cons_append, take_append_of_le_length (by simpa using hrest)]
    rw [cons_append, decode_cons, decode_cons, hfirst, hwidth,
      drop_append_of_le_length (by omega), cons_append, decode_append _ bs h]
termination_by as.length
decreasing_by simp only [length_drop, length_cons]; omega

end Diagram.Text.Glyph
