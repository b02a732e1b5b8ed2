/-! # Byte strings

Sources, listings and program output are sequences of bytes that need not be
valid UTF-8, so text at the boundary is kept as bytes.
-/

namespace TapeLang

/-- A byte string. -/
abbrev Bytes := List UInt8

namespace Bytes

/-- The UTF-8 encoding of a string. -/
def ofString (s : String) : Bytes :=
  s.toUTF8.data.toList

/-- The byte of an ASCII character. -/
def ofChar (c : Char) : UInt8 :=
  c.toNat.toUInt8

/-- Put `separator` between neighbouring byte strings and concatenate. -/
def join (separator : Bytes) (parts : List Bytes) : Bytes :=
  (parts.intersperse separator).flatten

end Bytes

end TapeLang
