import TapeLang.Machine.Run
import TapeLang.Stream.Printer
import TapeLang.Text.Decimal

/-! # Dumping a machine

A dump holds the pointer, the program counter and the first cells of the tape
in decimal, marked off by control bytes.
-/

namespace TapeLang

namespace Machine

/-- The number of cells in a dump: all of them if the count asked for is
    negative or more than there are. -/
def dumpCount (count : Int64) (m : Machine) : Nat :=
  if count < 0 ∨ m.tape.length < count then m.tape.size else count.toInt.toNat

/-- The pieces of cell values, separated by spaces. -/
def cellPieces (cells : List UInt8) : List Bytes :=
  (cells.map fun c => Decimal.ofNat c.toNat).intersperse [32]

/-- The pieces of a dump. -/
def dumpPieces (count : Int64) (m : Machine) : List Bytes :=
  [[0x1C], Decimal.ofInt m.tape.ptr.toInt, [0x1D], Decimal.ofInt m.pc.toInt, [0x1D]] ++
    cellPieces (m.tape.cells.toList.take (m.dumpCount count))

/-- Write a dump. -/
def dump (count : Int64) (m : Machine) (w : Writer) : Printer :=
  Printer.printAll (m.dumpPieces count) { writer := w }

end Machine

end TapeLang
