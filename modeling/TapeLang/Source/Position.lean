import TapeLang.Text.Bytes

/-! # Positions in a source

Lines and columns count from one, columns in characters; offsets count bytes
from zero. A complaint is a text about a position.
-/

namespace TapeLang

/-- A place in a source. -/
structure Position where
  line : Nat
  column : Nat
  offset : Nat
  deriving Repr, DecidableEq

/-- The position as it is shown for the source with the given name. -/
def Position.text (name : String) (p : Position) : String :=
  let shown := if name.isEmpty then "<input>" else name
  s!"{shown}:{p.line}:{p.column}"

/-- Something to be said about a position. -/
structure Complaint where
  position : Position
  text : Bytes
  deriving Repr, DecidableEq

namespace Complaint

/-- Number of complaints kept about one source. -/
def limit : Nat := 10

/-- A complaint with its position in front. -/
def render (name : String) (c : Complaint) : Bytes :=
  Bytes.ofString (c.position.text name ++ ": ") ++ c.text

/-- Complaints on lines of their own. -/
def renderAll (name : String) (cs : List Complaint) : Bytes :=
  Bytes.join [10] (cs.map (render name))

end Complaint

end TapeLang
