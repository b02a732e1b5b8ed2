import TapeLang.Text.Bytes

/-! # Files

What a command finds at a path: a file with its contents, a directory, or a
problem.
-/

namespace TapeLang

/-- What a path leads to. -/
inductive Entry where
  | file (data : Bytes)
  | directory
  deriving Repr, DecidableEq

/-- Why a path leads nowhere, or what it leads to cannot be read. -/
inductive PathProblem where
  /-- There is nothing of that name. -/
  | missing
  /-- A directory stands where a file is needed. -/
  | isDirectory
  /-- Anything else, by its text. -/
  | other (text : String)
  deriving Repr, DecidableEq

/-- What paths lead to. -/
abbrev Lookup := String → Except PathProblem Entry

namespace PathProblem

/-- The text of a path problem. -/
def text : PathProblem → String
  | .missing => "no such file or directory"
  | .isDirectory => "is a directory"
  | .other text => text

/-- The text of a failed attempt to open a path. -/
def openText (path : String) (p : PathProblem) : String :=
  s!"open {path}: {p.text}"

/-- The text of a failed attempt to read from a path. -/
def readText (path : String) (p : PathProblem) : String :=
  s!"read {path}: {p.text}"

end PathProblem

end TapeLang
