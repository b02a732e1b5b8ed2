import TapeLang.Text.Bytes

/-! # Integer literals

An optional sign, an optional radix mark (`0x`, `0o`, `0b`, or a bare `0` for
octal) and digits, with underscores allowed between digits and between the
radix mark and a digit. The value has to fit a signed word of the given width.
-/

namespace TapeLang

namespace IntLiteral

/-- Why a text is not an integer literal of the wanted width. -/
inductive Problem where
  /-- The text is not an integer literal. -/
  | malformed
  /-- The literal is too large. -/
  | outOfRange
  deriving Repr, DecidableEq

/-- An ASCII letter in lower case; other bytes may change too, but not into letters. -/
def lower (b : UInt8) : UInt8 :=
  b ||| 0x20

/-- The value of a digit in a radix up to 36. -/
def digitValue? (b : UInt8) : Option Nat :=
  if 48 ≤ b && b ≤ 57 then some (b.toNat - 48)
  else if 97 ≤ lower b && lower b ≤ 122 then some ((lower b).toNat - 87)
  else none

/-- The radix announced by the front of an unsigned literal, and its digits. -/
def splitRadix : Bytes → Nat × Bytes
  | 48 :: mark :: d :: rest =>
    if lower mark = 98 then (2, d :: rest)
    else if lower mark = 111 then (8, d :: rest)
    else if lower mark = 120 then (16, d :: rest)
    else (8, mark :: d :: rest)
  | 48 :: rest => (8, rest)
  | digits => (10, digits)

/-- Value of the digits read after `value`, underscores skipped. A value above
    `limit` is out of range even if a wrong digit follows. -/
def digitsValue (radix limit : Nat) : (value : Nat) → Bytes → Except Problem Nat
  | value, [] => .ok value
  | value, b :: rest =>
    if b = 95 then digitsValue radix limit value rest
    else match digitValue? b with
      | none => .error .malformed
      | some d =>
        if radix ≤ d then .error .malformed
        else if limit < value * radix + d then .error .outOfRange
        else digitsValue radix limit (value * radix + d) rest

/-- What the last byte was, for the placement of underscores. -/
inductive Before where
  | start
  | digit
  | underscore
  | other
  deriving Repr, DecidableEq

/-- Every underscore follows a digit and is followed by one. -/
def underscoresPlaced (hex : Bool) : Before → Bytes → Bool
  | before, [] => before != .underscore
  | before, b :: rest =>
    if (48 ≤ b && b ≤ 57) || (hex && 97 ≤ lower b && lower b ≤ 102) then
      underscoresPlaced hex .digit rest
    else if b = 95 then
      before == .digit && underscoresPlaced hex .underscore rest
    else
      before != .underscore && underscoresPlaced hex .other rest

/-- Underscores are placed well; a radix mark counts as a digit. -/
def underscoresOk : Bytes → Bool
  | 48 :: mark :: rest =>
    if lower mark = 98 || lower mark = 111 || lower mark = 120 then
      underscoresPlaced (lower mark = 120) .digit rest
    else underscoresPlaced false .start (48 :: mark :: rest)
  | digits => underscoresPlaced false .start digits

/-- The value of a literal without sign, below `2 ^ bits`. -/
def magnitude (bits : Nat) (text : Bytes) : Except Problem Nat :=
  if text.isEmpty then .error .malformed
  else
    let (radix, digits) := splitRadix text
    match digitsValue radix (Nat.pow 2 bits - 1) 0 digits with
    | .error p => .error p
    | .ok n =>
      if text.contains 95 && !underscoresOk text then .error .malformed else .ok n

/-- The value of a literal as a signed word of `bits` bits. -/
def parse (bits : Nat) (text : Bytes) : Except Problem Int :=
  match text with
  | 45 :: digits =>
    match magnitude bits digits with
    | .error p => .error p
    | .ok n => if Nat.pow 2 (bits - 1) < n then .error .outOfRange else .ok (-n)
  | _ =>
    let digits := match text with
      | 43 :: rest => rest
      | _ => text
    match magnitude bits digits with
    | .error p => .error p
    | .ok n => if Nat.pow 2 (bits - 1) ≤ n then .error .outOfRange else .ok n

end IntLiteral

end TapeLang
