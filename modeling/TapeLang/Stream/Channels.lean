import TapeLang.Stream.Failure
import TapeLang.Stream.Input
import TapeLang.Stream.Writer

/-! # Channels

The input and output of a running machine, with the log of everything that
happened on them. Without an output, bytes are discarded.
-/

namespace TapeLang

/-- Input, output and what happened on them. -/
structure Channels where
  input : Input := .absent
  output : Option Writer := none
  log : Array Event := #[]

namespace Channels

/-- Write one byte to the output; a failure is returned. -/
def write (b : UInt8) : Channels → Channels × Option Failure
  | ⟨input, none, log⟩ => (⟨input, none, log⟩, none)
  | ⟨input, some w, log⟩ =>
    let (outcome, w) := w.write [b]
    (⟨input, some w, log.push (.write [b] outcome.taken outcome.failure.isNone)⟩,
      outcome.failure.map Failure.ofWrite)

/-- Flush the output if it can be flushed; a failure is returned. -/
def flush : Channels → Channels × Option Failure
  | ⟨input, none, log⟩ => (⟨input, none, log⟩, none)
  | ⟨input, some w, log⟩ =>
    match w.flush? with
    | none => (⟨input, some w, log⟩, none)
    | some (failure, w) =>
      (⟨input, some w, log.push (.flush failure.isNone)⟩,
        failure.map Failure.ofFlush)

/-- Ask the input for one byte. -/
def pullByte : Channels → Channels × ByteRead
  | ⟨input, output, log⟩ =>
    let (outcome, input, events) := input.pullByte
    (⟨input, output, log ++ events⟩, outcome)

end Channels

end TapeLang
