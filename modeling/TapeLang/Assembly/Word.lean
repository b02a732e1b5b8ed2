import TapeLang.Source.Glyph
import TapeLang.Text.CharClass

/-! # Words of an assembly source

A word is a longest run of word characters; blanks separate words, and any
other character stands alone. Problems of reading are passed on in the order
in which they are met: a problem with the character after a word counts before
the word itself, and is placed at the word.
-/

namespace TapeLang

namespace Assembly

/-- What an assembly source consists of. -/
inductive Item where
  /-- A problem of reading. -/
  | problem (c : Complaint)
  /-- A word. -/
  | word (position : Position) (text : Bytes)
  /-- A character that is neither blank nor part of a word. -/
  | stray (position : Position) (c : Char)
  deriving Repr, DecidableEq

/-- What the last glyph belongs to. -/
inductive Mode where
  /-- Nothing. -/
  | between
  /-- A word that may go on. -/
  | word (position : Position) (text : Array UInt8)
  /-- A character that stands alone. -/
  | stray (position : Position) (c : Char)
  deriving Repr, DecidableEq

/-- A source read up to some glyph. -/
structure Scanned where
  mode : Mode := .between
  items : Array Item := #[]
  deriving Repr, DecidableEq

namespace Mode

/-- Where a problem with the next glyph is placed: at the item before it, if
    it follows one directly. -/
def place (own : Position) : Mode → Position
  | .between => own
  | .word position _ => position
  | .stray position _ => position

/-- The item that ends here. -/
def close : Mode → List Item
  | .between => []
  | .word position text => [.word position text.toList]
  | .stray position c => [.stray position c]

/-- What a glyph starts that does not continue a word. -/
def start (g : Glyph) : Mode :=
  match g.char with
  | none => .between
  | some c =>
    if CharClass.isBlank c then .between
    else if CharClass.isWord c then .word g.position g.raw.toArray
    else .stray g.position c

end Mode

namespace Scanned

/-- Take the next glyph. -/
def push (s : Scanned) (g : Glyph) : Scanned :=
  let ⟨mode, items⟩ := s
  let items := items ++ g.reports.map fun r =>
    Item.problem ⟨mode.place r.position, Bytes.ofString r.text⟩
  match mode with
  | .word position text =>
    if g.char.any CharClass.isWord then ⟨.word position (text ++ g.raw), items⟩
    else ⟨.start g, items.push (.word position text.toList)⟩
  | .stray position c => ⟨.start g, items.push (.stray position c)⟩
  | .between => ⟨.start g, items⟩

end Scanned

/-- The mark that may stand at the very start of a source. -/
def byteOrderMark : Char := Char.ofNat 0xFEFF

/-- A byte order mark at the very start counts as a blank. -/
def blankMark : List Glyph → List Glyph
  | g :: rest => if g.char = some byteOrderMark then { g with char := some ' ' } :: rest else g :: rest
  | [] => []

/-- The items of a source. -/
def items (gs : List Glyph) : List Item :=
  let s := (blankMark gs).foldl Scanned.push {}
  (s.items ++ s.mode.close).toList

end Assembly

end TapeLang
