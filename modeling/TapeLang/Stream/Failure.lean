/-! # Failures with context

A failure keeps the message of its first cause and the contexts it passed
through on its way out. Read in one line, the contexts come first.
-/

namespace TapeLang

/-- A failure message with the contexts added around it, outermost first. -/
structure Failure where
  context : List String
  cause : String
  deriving Repr, DecidableEq

namespace Failure

/-- A failure without context. -/
def ofCause (cause : String) : Failure :=
  ⟨[], cause⟩

/-- Add an outer context. -/
def within (outer : String) (f : Failure) : Failure :=
  { f with context := outer :: f.context }

/-- The failure of a read call with the given message. -/
def ofRead (message : String) : Failure :=
  (ofCause message).within "read failed"

/-- The failure of a write call with the given message. -/
def ofWrite (message : String) : Failure :=
  (ofCause message).within "write failed"

/-- The failure of a flush call with the given message. -/
def ofFlush (message : String) : Failure :=
  (ofCause message).within "flush failed"

/-- Contexts and cause in one line, outermost first. -/
def message (f : Failure) : String :=
  ": ".intercalate (f.context ++ [f.cause])

/-- Cause and contexts on lines of their own, innermost first. -/
def trail (f : Failure) : String :=
  "\n".intercalate (f.cause :: f.context.reverse)

end Failure

end TapeLang
