import TapeLang.Text.Bytes

/-! # Readers

A reader is known by what its successive read calls deliver: chunks of data,
each with the way its last byte is delivered. Once all chunks are used up it
reports the end of input for ever. `Reader.read` is one read call with a
buffer of some capacity; `Reader.pullByte` repeats calls with a one-byte
buffer until one of them decides.
-/

namespace TapeLang

/-- What a read call reports besides its data. -/
inductive Ending where
  /-- Nothing: there may be more. -/
  | more
  /-- The end of the input. -/
  | ended
  /-- A failure with its message. -/
  | failed (message : String)
  deriving Repr, DecidableEq

/-- Data and the report that comes with its last byte. -/
structure Chunk where
  data : Bytes
  ending : Ending := .more
  deriving Repr, DecidableEq

/-- A source of bytes. -/
structure Reader where
  /-- A number that tells readers apart in the event log. -/
  id : Nat
  chunks : List Chunk
  /-- Whether the reader wants to be closed when it is exhausted. -/
  closable : Bool := false
  deriving Repr, DecidableEq

/-- Something observable that happened at the boundary. -/
inductive Event where
  /-- A read call on a reader, the bytes it returned and its report. -/
  | read (reader : Nat) (data : Bytes) (ending : Ending)
  /-- A reader was closed. -/
  | close (reader : Nat)
  /-- A write call: the bytes offered, how many were taken, and whether it succeeded. -/
  | write (offered : Bytes) (taken : Nat) (ok : Bool)
  /-- A flush call, and whether it succeeded. -/
  | flush (ok : Bool)
  deriving Repr, DecidableEq

/-- The outcome of asking for one byte. -/
inductive ByteRead where
  | byte (b : UInt8)
  | ended
  | failed (message : String)
  deriving Repr, DecidableEq

namespace Reader

/-- A reader that delivers the given bytes at once. -/
def ofBytes (id : Nat) (data : Bytes) : Reader :=
  { id, chunks := if data.isEmpty then [] else [⟨data, .more⟩] }

/-- One read call with a buffer of the given capacity: what it delivers, and
    the chunks left. Data that does not fit stays for the next call. -/
def take (capacity : Nat) : List Chunk → Chunk × List Chunk
  | [] => (⟨[], .ended⟩, [])
  | c :: rest =>
    match c.data.drop capacity with
    | [] => (c, rest)
    | left => (⟨c.data.take capacity, .more⟩, ⟨left, c.ending⟩ :: rest)

/-- One read call with a buffer of the given capacity. -/
def read (capacity : Nat) (r : Reader) : Chunk × Reader :=
  let (delivered, chunks) := take capacity r.chunks
  (delivered, { r with chunks })

/-- Read calls with a one-byte buffer, repeated while they deliver and report
    nothing. A report that comes along with a byte is dropped. -/
def pullFrom (id : Nat) : List Chunk → ByteRead × List Chunk × List Event
  | [] => (.ended, [], [.read id [] .ended])
  | ⟨[], .more⟩ :: rest =>
    let (outcome, left, events) := pullFrom id rest
    (outcome, left, .read id [] .more :: events)
  | ⟨[], .ended⟩ :: rest => (.ended, rest, [.read id [] .ended])
  | ⟨[], .failed m⟩ :: rest => (.failed m, rest, [.read id [] (.failed m)])
  | ⟨[b], ending⟩ :: rest => (.byte b, rest, [.read id [b] ending])
  | ⟨b :: b' :: data, ending⟩ :: rest =>
    (.byte b, ⟨b' :: data, ending⟩ :: rest, [.read id [b] .more])

/-- Ask for one byte. -/
def pullByte (r : Reader) : ByteRead × Reader × List Event :=
  let (outcome, chunks, events) := pullFrom r.id r.chunks
  (outcome, { r with chunks }, events)

end Reader

end TapeLang
