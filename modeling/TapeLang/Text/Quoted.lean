import TapeLang.Text.CharClass

/-! # Quoted text

A character or string between quotes, with backslash escapes for the quote,
the backslash and everything that has no visible form.
-/

namespace TapeLang

namespace Quoted

/-- One lower-case hexadecimal digit. -/
def hexDigit (n : Nat) : Char :=
  if n % 16 < 10 then Char.ofNat (48 + n % 16) else Char.ofNat (87 + n % 16)

/-- The last `width` hexadecimal digits of `n`. -/
def hex : (width : Nat) → (n : Nat) → String
  | 0, _ => ""
  | width + 1, n => (hex width (n / 16)).push (hexDigit n)

/-- The letter that escapes a control character, where it has one. -/
def controlLetter? (c : Char) : Option Char :=
  match c.toNat with
  | 7 => some 'a'
  | 8 => some 'b'
  | 9 => some 't'
  | 10 => some 'n'
  | 11 => some 'v'
  | 12 => some 'f'
  | 13 => some 'r'
  | _ => none

/-- The escape of a character that is not written as itself. -/
def escapeNumber (n : Nat) : String :=
  if n < 32 || n = 127 then "\\x" ++ hex 2 n
  else if n < 0x10000 then "\\u" ++ hex 4 n
  else "\\U" ++ hex 8 n

/-- A character as it stands between the given quotes. -/
def escape (quote : Char) (c : Char) : String :=
  if c = quote || c = '\\' then "\\".push c
  else if CharClass.isPrintable c then String.singleton c
  else match controlLetter? c with
    | some letter => "\\".push letter
    | none => escapeNumber c.toNat

/-- A character between single quotes. -/
def char (c : Char) : String :=
  "\x27" ++ escape (Char.ofNat 39) c ++ "\x27"

/-- A string between double quotes. -/
def string (s : String) : String :=
  "\"" ++ String.join (s.toList.map (escape '"')) ++ "\""

end Quoted

end TapeLang
