import TapeLang.Text.Bytes

/-! # Writers

A writer is known by how it answers its successive write and flush calls. It
collects the bytes it took.
-/

namespace TapeLang

/-- How a writer answers a write call. -/
inductive Reply where
  /-- All bytes are taken. -/
  | accept
  /-- At most `taken` bytes are taken and the call fails. -/
  | refuse (taken : Nat) (message : String)
  deriving Repr, DecidableEq

/-- A destination of bytes. -/
structure Writer where
  /-- The answer to the write call with this number, counted from zero. -/
  onWrite : Nat → Reply := fun _ => .accept
  /-- For a writer that can be flushed, the message with which the flush call
      of this number, counted from zero, fails, if it does. -/
  onFlush : Option (Nat → Option String) := none
  /-- Number of write calls so far. -/
  writes : Nat := 0
  /-- Number of flush calls so far. -/
  flushes : Nat := 0
  /-- The bytes taken so far. -/
  received : Array UInt8 := #[]

/-- The outcome of a write call. -/
structure Written where
  /-- How many of the offered bytes were taken. -/
  taken : Nat
  /-- The message, if the call failed. -/
  failure : Option String
  deriving Repr, DecidableEq

namespace Writer

/-- The outcome that a reply means for an offer of `size` bytes. -/
def settle (size : Nat) : Reply → Written
  | .accept => ⟨size, none⟩
  | .refuse taken message => ⟨min taken size, some message⟩

/-- One write call. -/
def write (data : Bytes) (w : Writer) : Written × Writer :=
  let outcome := settle data.length (w.onWrite w.writes)
  (outcome, { w with
    writes := w.writes + 1
    received := w.received ++ data.take outcome.taken })

/-- One flush call, with its outcome; `none` if the writer cannot be flushed. -/
def flush? (w : Writer) : Option (Option String × Writer) :=
  w.onFlush.map fun answer => (answer w.flushes, { w with flushes := w.flushes + 1 })

end Writer

end TapeLang
