/-!
# Glyphs: the characters of a byte string

A source is a byte string that need not be well-formed UTF-8.  It is read as a
list of glyphs, each a character together with the bytes it was read from.  A
well-formed sequence of one to four bytes gives its own character; any byte that
starts no such sequence is a glyph of its own, read as the replacement character.

Main statement: `bytesOf_decode`, the bytes of the glyphs are the source.
-/

namespace Diagram.Text

/-- A character of a source, with the bytes that it was read from. -/
structure Glyph where
  char : Char
  bytes : List UInt8
deriving DecidableEq, Repr, Inhabited

namespace Glyph

/-- The character that stands for a byte that starts no well-formed sequence. -/
def replacement : Char := '�'

/-- A continuation byte lies between `0x80` and `0xBF`. -/
def isContinuation (b : UInt8) : Bool :=
  0x80 ≤ b && b ≤ 0xBF

/-- The six payload bits of a continuation byte. -/
def payload (b : UInt8) : Nat :=
  b.toNat % 64

/-- A lead byte of a two-byte sequence; `0xC0` and `0xC1` could only lead overlong ones. -/
def leadsTwo (a : UInt8) : Bool :=
  0xC2 ≤ a && a ≤ 0xDF

/-- The first two bytes of a three-byte sequence: neither overlong nor a surrogate. -/
def leadsThree (a b : UInt8) : Bool :=
  0xE0 ≤ a && a ≤ 0xEF && isContinuation b && (a != 0xE0 || 0xA0 ≤ b) && (a != 0xED || b ≤ 0x9F)

/-- The first two bytes of a four-byte sequence: neither overlong nor above `0x10FFFF`. -/
def leadsFour (a b : UInt8) : Bool :=
  0xF0 ≤ a && a ≤ 0xF4 && isContinuation b && (a != 0xF0 || 0x90 ≤ b) && (a != 0xF4 || b ≤ 0x8F)

/-- The number of bytes in the glyph at the head of `a :: rest`. -/
def width (a : UInt8) (rest : List UInt8) : Nat :=
  match rest with
  | b :: c :: d :: _ =>
    if leadsFour a b && isContinuation c && isContinuation d then 4
    else if leadsThree a b && isContinuation c then 3
    else if leadsTwo a && isContinuation b then 2
    else 1
  | [b, c] =>
    if leadsThree a b && isContinuation c then 3
    else if leadsTwo a && isContinuation b then 2
    else 1
  | [b] => if leadsTwo a && isContinuation b then 2 else 1
  | [] => 1

/-- The character that a sequence of bytes of a glyph's width stands for. -/
def charOf : List UInt8 → Char
  | [a] => if a < 0x80 then Char.ofNat a.toNat else replacement
  | [a, b] => Char.ofNat (a.toNat % 32 * 64 + payload b)
  | [a, b, c] => Char.ofNat ((a.toNat % 16 * 64 + payload b) * 64 + payload c)
  | [a, b, c, d] =>
    Char.ofNat (((a.toNat % 8 * 64 + payload b) * 64 + payload c) * 64 + payload d)
  | _ => replacement

def first (a : UInt8) (rest : List UInt8) : Glyph :=
  let bytes := (a :: rest).take (width a rest)
  ⟨charOf bytes, bytes⟩

/-- Reads the glyphs of a byte string, of which the next `skip` bytes belong to
the glyph that was read last. -/
def decodeAfter : (skip : Nat) → List UInt8 → List Glyph
  | _, [] => []
  | skip + 1, _ :: rest => decodeAfter skip rest
  | 0, a :: rest => first a rest :: decodeAfter (width a rest - 1) rest

def decode (bytes : List UInt8) : List Glyph :=
  decodeAfter 0 bytes

def bytesOf (glyphs : List Glyph) : List UInt8 :=
  glyphs.flatMap Glyph.bytes

def textOf (glyphs : List Glyph) : String :=
  String.ofList (glyphs.map Glyph.char)

theorem width_pos (a : UInt8) (rest : List UInt8) : 0 < width a rest := by
  unfold width
  split
  · repeat' split
    all_goals decide
  · repeat' split
    all_goals decide
  · split <;> decide
  · decide

theorem first_bytes (a : UInt8) (rest : List UInt8) :
    (first a rest).bytes = a :: rest.take (width a rest - 1) := by
  have hpos := width_pos a rest
  obtain ⟨n, hn⟩ : ∃ n, width a rest = n + 1 := ⟨width a rest - 1, by omega⟩
  simp [first, hn]

theorem bytesOf_decodeAfter (bytes : List UInt8) :
    ∀ skip, bytesOf (decodeAfter skip bytes) = bytes.drop skip := by
  induction bytes with
  | nil => intro skip; cases skip <;> rfl
  | cons a rest ih =>
    intro skip
    cases skip with
    | succ n => simpa [decodeAfter] using ih n
    | zero =>
      have h := ih (width a rest - 1)
      simp only [bytesOf] at h ⊢
      simp [decodeAfter, first_bytes, h]

theorem bytesOf_decode (bytes : List UInt8) : bytesOf (decode bytes) = bytes := by
  simp [decode, bytesOf_decodeAfter]

end Glyph

end Diagram.Text
