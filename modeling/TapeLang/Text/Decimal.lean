import TapeLang.Text.Bytes

/-! # Decimal numerals

Numbers are written in base ten without leading zeros, negative ones with a
minus sign, and may be right-aligned in a field.
-/

namespace TapeLang

namespace Decimal

/-- The byte of one decimal digit. -/
def digit (n : Nat) : UInt8 :=
  (48 + n % 10).toUInt8

/-- The decimal numeral of a natural number. -/
def ofNat (n : Nat) : Bytes :=
  if n < 10 then [digit n] else ofNat (n / 10) ++ [digit n]
termination_by n
decreasing_by omega

/-- The decimal numeral of an integer. -/
def ofInt : Int → Bytes
  | .ofNat n => ofNat n
  | .negSucc n => 45 :: ofNat (n + 1)

/-- Right-align `text` in a field of the given width; longer texts are kept whole. -/
def alignRight (width : Int) (text : Bytes) : Bytes :=
  List.replicate (width - text.length).toNat 32 ++ text

end Decimal

end TapeLang
