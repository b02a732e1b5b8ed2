import TapeLang.Stream.Reader

/-! # Ending input by a control byte

On a terminal that passes every key through, the byte 4 (end of
transmission) ends the input: a read call that delivers it is cut before it
and reports the end.
-/

namespace TapeLang

namespace Reader

/-- The byte that ends the input of a terminal. -/
def endOfTransmission : UInt8 := 4

/-- Cut a delivery before the first end-of-transmission byte, if it has one. -/
def cutTransmission (c : Chunk) : Chunk :=
  if c.data.contains endOfTransmission then
    ⟨c.data.takeWhile (· != endOfTransmission), .ended⟩
  else c

/-- One read call on a reader whose input is ended by a control byte. -/
def readTransmission (capacity : Nat) (r : Reader) : Chunk × Reader :=
  let (delivered, r) := r.read capacity
  (cutTransmission delivered, r)

/-- Successive read calls with buffers of the given capacities. -/
def readTransmissions (r : Reader) : List Nat → List Chunk
  | [] => []
  | capacity :: rest =>
    let (delivered, r) := r.readTransmission capacity
    delivered :: readTransmissions r rest

end Reader

end TapeLang
