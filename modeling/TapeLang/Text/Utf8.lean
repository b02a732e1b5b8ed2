import TapeLang.Text.Bytes

/-! # Characters at the front of a byte string

A byte string starts with a whole UTF-8 character, with a byte that cannot
start or continue one, or with the beginning of a character whose remaining
bytes are missing. Overlong forms, surrogates and numbers above U+10FFFF are
malformed.
-/

namespace TapeLang

namespace Utf8

/-- What stands at the front of a byte string. -/
inductive Front where
  /-- Nothing, or the beginning of a character that may still be completed. -/
  | incomplete
  /-- A byte that belongs to no character. -/
  | malformed
  /-- The character `c`, encoded in `width` bytes. -/
  | whole (c : Char) (width : Nat)
  deriving Repr, DecidableEq

/-- How a character that starts with a non-ASCII byte goes on. -/
structure Shape where
  /-- Number of bytes after the first. -/
  more : Nat
  /-- Least second byte. -/
  low : UInt8
  /-- Greatest second byte. -/
  high : UInt8
  deriving Repr, DecidableEq

/-- The shape announced by a non-ASCII first byte, if it can start a character. -/
def Shape.ofLead (b : UInt8) : Option Shape :=
  if b < 0xC2 then none
  else if b ≤ 0xDF then some ⟨1, 0x80, 0xBF⟩
  else if b = 0xE0 then some ⟨2, 0xA0, 0xBF⟩
  else if b = 0xED then some ⟨2, 0x80, 0x9F⟩
  else if b ≤ 0xEF then some ⟨2, 0x80, 0xBF⟩
  else if b = 0xF0 then some ⟨3, 0x90, 0xBF⟩
  else if b ≤ 0xF3 then some ⟨3, 0x80, 0xBF⟩
  else if b = 0xF4 then some ⟨3, 0x80, 0x8F⟩
  else none

/-- The bits that a first byte contributes when `more` bytes follow it. -/
def leadBits (b : UInt8) (more : Nat) : Nat :=
  b.toNat % Nat.pow 2 (6 - more)

/-- Read `more` further bytes, the first of them between `low` and `high`. -/
def extend (width value : Nat) : (more : Nat) → (low high : UInt8) → Bytes → Front
  | 0, _, _, _ => .whole (Char.ofNat value) width
  | _ + 1, _, _, [] => .incomplete
  | more + 1, low, high, b :: rest =>
    if low ≤ b ∧ b ≤ high then
      extend width (value * 64 + b.toNat % 64) more 0x80 0xBF rest
    else .malformed

/-- What stands at the front of the given bytes. -/
def front : Bytes → Front
  | [] => .incomplete
  | b :: rest =>
    if b < 0x80 then .whole (Char.ofNat b.toNat) 1
    else match Shape.ofLead b with
      | none => .malformed
      | some s => extend (s.more + 1) (leadBits b s.more) s.more s.low s.high rest

end Utf8

end TapeLang
