import TapeLang.Stream.Reader

/-! # The input stack

Readers are pushed on top of each other. A lone reader is asked directly, also
after it reported the end of its input. As soon as there are several, an
exhausted reader is closed and dropped and the one below it goes on.
-/

namespace TapeLang

/-- Where input bytes come from. -/
inductive Input where
  /-- No reader was ever pushed. -/
  | absent
  /-- One reader, asked again whatever it reported. -/
  | single (r : Reader)
  /-- Readers from the top; exhausted ones are dropped. -/
  | stack (rs : List Reader)
  deriving Repr, DecidableEq

namespace Input

/-- Put a reader on top. -/
def push (r : Reader) : Input → Input
  | .absent => .single r
  | .single below => .stack [r, below]
  | .stack rs => .stack (r :: rs)

/-- The event of closing a reader, if it wants to be closed. -/
def closing (r : Reader) : List Event :=
  if r.closable then [.close r.id] else []

/-- Ask the readers for one byte from the top down, dropping the exhausted. -/
def pullStack : List Reader → ByteRead × List Reader × List Event
  | [] => (.ended, [], [])
  | r :: below =>
    match r.pullByte with
    | (.ended, r, events) =>
      let (outcome, left, later) := pullStack below
      (outcome, left, events ++ closing r ++ later)
    | (outcome, r, events) => (outcome, r :: below, events)

/-- Ask for one byte. -/
def pullByte : Input → ByteRead × Input × List Event
  | .absent => (.ended, .absent, [])
  | .single r =>
    let (outcome, r, events) := r.pullByte
    (outcome, .single r, events)
  | .stack rs =>
    let (outcome, rs, events) := pullStack rs
    (outcome, .stack rs, events)

end Input

end TapeLang
