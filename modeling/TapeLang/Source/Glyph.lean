import TapeLang.Source.Position
import TapeLang.Stream.Reader
import TapeLang.Text.Utf8

/-! # Characters of a source as they arrive

A source is delivered by a reader in chunks of bytes. Characters are decoded
through a buffer that is refilled only when it holds no whole character. A
glyph is one character with its bytes, its position and the problems met while
fetching it; the last glyph stands for the end of the source.

Reading a source through its glyphs gives the same characters and positions
however its bytes are chunked.
-/

namespace TapeLang

/-- A problem met while reading a source. -/
structure Report where
  position : Position
  text : String
  deriving Repr, DecidableEq

/-- One character of a source, or its end. -/
structure Glyph where
  /-- The character; `none` at the end of the source. -/
  char : Option Char
  /-- The bytes it was decoded from. -/
  raw : Bytes
  position : Position
  /-- The problems met while fetching it, in order. -/
  reports : List Report
  deriving Repr, DecidableEq

/-- How far a source has been read. -/
structure Track where
  line : Nat := 1
  /-- Number of characters read on this line. -/
  column : Nat := 0
  /-- Number of characters on the line before, its newline included. -/
  previousLine : Nat := 0
  /-- Number of bytes read. -/
  consumed : Nat := 0
  /-- Number of bytes of the last character. -/
  width : Nat := 0
  deriving Repr, DecidableEq

namespace Track

/-- The position of the last character read. -/
def position (t : Track) : Position :=
  if 0 < t.column then ⟨t.line, t.column, t.consumed - t.width⟩
  else if 0 < t.previousLine then ⟨t.line - 1, t.previousLine, t.consumed - t.width⟩
  else ⟨1, 1, t.consumed - t.width⟩

/-- Read a character of `width` bytes. -/
def advance (c : Char) (width : Nat) (t : Track) : Track :=
  if c = '\n' then
    { line := t.line + 1, column := 0, previousLine := t.column + 1,
      consumed := t.consumed + width, width }
  else { t with column := t.column + 1, consumed := t.consumed + width, width }

/-- Reach the end of the source. -/
def finish (t : Track) : Track :=
  { t with column := if 0 < t.width then t.column + 1 else t.column, width := 0 }

end Track

namespace Glyph

/-- The character that stands for a byte of no character. -/
def replacement : Char := Char.ofNat 0xFFFD

/-- Number of bytes the buffer holds. -/
def bufferSize : Nat := 1024

/-- Read on until a whole character is buffered or a report comes: the message
    of a failed read, the buffered bytes, and the chunks left. -/
def refill : (buffered : Bytes) → List Chunk → Option String × Bytes × List Chunk
  | buffered, [] => (none, buffered, [])
  | buffered, c :: rest =>
    if Utf8.front buffered = .incomplete then
      match c.data.drop (bufferSize - buffered.length) with
      | [] =>
        match c.ending with
        | .more => refill (buffered ++ c.data) rest
        | .ended => (none, buffered ++ c.data, rest)
        | .failed message => (some message, buffered ++ c.data, rest)
      | left =>
        (none, buffered ++ c.data.take (bufferSize - buffered.length), ⟨left, c.ending⟩ :: rest)
    else (none, buffered, c :: rest)

/-- Number of bytes in the buffer and in the chunks. -/
def remaining (buffered : Bytes) (chunks : List Chunk) : Nat :=
  buffered.length + chunks.foldr (fun c n => c.data.length + n) 0

/-- Refilling moves bytes and loses none. -/
theorem remaining_refill (buffered : Bytes) (chunks : List Chunk) :
    remaining (refill buffered chunks).2.1 (refill buffered chunks).2.2 =
      remaining buffered chunks := by
  induction chunks generalizing buffered with
  | nil => simp [refill]
  | cons c rest ih =>
    unfold refill
    split
    · split
      · split
        · rw [ih]
          simp [remaining]
          omega
        · simp [remaining]
          omega
        · simp [remaining]
          omega
      · rename_i left _
        have h : (c.data.take (bufferSize - buffered.length)).length +
            (c.data.drop (bufferSize - buffered.length)).length = c.data.length := by
          simp
          omega
        simp only [remaining, List.length_append, List.foldr_cons]
        omega
    · rfl

/-- The glyph at the front of non-empty buffered bytes `b :: rest`, the track
    after it, and the bytes after it. -/
def decode (t : Track) (reports : List Report) (b : UInt8) (rest : Bytes) :
    Glyph × Track × Bytes :=
  match Utf8.front (b :: rest) with
  | .whole c width =>
    let t := t.advance c width
    let problems := if c = Char.ofNat 0 then [⟨t.position, "invalid character NUL"⟩] else []
    (⟨some c, (b :: rest).take width, t.position, reports ++ problems⟩, t, rest.drop (width - 1))
  | _ =>
    let t := t.advance replacement 1
    let problem := ⟨t.position, "invalid UTF-8 encoding"⟩
    (⟨some replacement, [b], t.position, reports ++ [problem]⟩, t, rest)

/-- Decoding consumes at least the first byte. -/
theorem length_decode_le (t : Track) (reports : List Report) (b : UInt8) (rest : Bytes) :
    (decode t reports b rest).2.2.length ≤ rest.length := by
  unfold decode
  split <;> simp

/-- The glyphs read from buffered bytes and chunks, after those in `before`. -/
def gather (before : Array Glyph) (t : Track) (buffered : Bytes) (chunks : List Chunk) :
    Array Glyph :=
  match _h : refill buffered chunks with
  | (message, [], _) =>
    before.push ⟨none, [], t.finish.position, (message.map (Report.mk t.position)).toList⟩
  | (message, b :: rest, left) =>
    let decoded := decode t (message.map (Report.mk t.position)).toList b rest
    gather (before.push decoded.1) decoded.2.1 decoded.2.2 left
termination_by remaining buffered chunks
decreasing_by
  have same := remaining_refill buffered chunks
  have less := length_decode_le t (message.map (Report.mk t.position)).toList b rest
  rw [_h] at same
  simp only [remaining, List.length_cons] at same ⊢
  omega

/-- The glyphs of a source that is delivered in the given chunks. -/
def ofChunks (chunks : List Chunk) : List Glyph :=
  (gather #[] {} [] chunks).toList

end Glyph

end TapeLang
