import TapeLang.Block.Basic
import TapeLang.Source.Glyph

/-! # Tokens

The eight characters that mean something in a source, with their positions.
Every other character is a comment.
-/

namespace TapeLang

/-- A meaningful character. -/
inductive Symbol where
  | right
  | left
  | inc
  | dec
  | output
  | input
  | loopStart
  | loopEnd
  deriving Repr, DecidableEq, Inhabited

/-- A symbol at its position. -/
structure Token where
  symbol : Symbol
  position : Position
  deriving Repr, DecidableEq

namespace Symbol

/-- The character of a symbol. -/
def char : Symbol → Char
  | .right => '>'
  | .left => '<'
  | .inc => '+'
  | .dec => '-'
  | .output => '.'
  | .input => ','
  | .loopStart => '['
  | .loopEnd => ']'

/-- All symbols, in the order of their numbers. -/
def all : List Symbol :=
  [.right, .left, .inc, .dec, .output, .input, .loopStart, .loopEnd]

/-- The symbol of a character. -/
def ofChar? (c : Char) : Option Symbol :=
  all.find? (·.char = c)

/-- The name of a symbol. -/
def name (s : Symbol) : String :=
  String.singleton s.char

end Symbol

namespace Token

/-- The name of the end of a source among the names of symbols. -/
def endName : String := "EOF"

/-- The name of the token kind with the given number: the end of the source is
    number zero and the symbols follow. -/
def kindName (number : Int) : String :=
  match number with
  | .ofNat 0 => endName
  | .ofNat (n + 1) =>
    match Symbol.all[n]? with
    | some s => s.name
    | none => s!"kind({number})"
  | .negSucc _ => s!"kind({number})"

/-- The token of a glyph, if it is a symbol. -/
def ofGlyph? (g : Glyph) : Option Token :=
  match g.char.bind Symbol.ofChar? with
  | some symbol => some ⟨symbol, g.position⟩
  | none => none

/-- The tokens of a source. -/
def ofGlyphs (gs : List Glyph) : List Token :=
  gs.filterMap ofGlyph?

end Token

namespace Glyph

/-- The position at which a source ends. -/
def endPosition (gs : List Glyph) : Position :=
  match gs.getLast? with
  | some g => g.position
  | none => ⟨1, 1, 0⟩

/-- The first read failure of a source. Reports that start with "invalid" are
    about stray bytes, which are as good a comment as any. -/
def readFailure? (gs : List Glyph) : Option String :=
  gs.findSome? fun g =>
    (g.reports.find? fun r => !"invalid".toList.isPrefixOf r.text.toList).map (·.text)

end Glyph

end TapeLang
