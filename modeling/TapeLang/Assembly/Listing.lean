import TapeLang.Instruction
import TapeLang.Stream.Printer
import TapeLang.Text.Decimal

/-! # Listings

A listing has one line per instruction: its address right-aligned, its mnemonic
and operands, and for a jump the address at which the program goes on if the
jump is taken. Texts are made as sequences of pieces; each piece is written by
one write call. Lines are written one by one, on one printer, and the first line
that fails is the last.
-/

namespace TapeLang

namespace Assembly

/-- The pieces of an instruction. -/
def instructionPieces (i : Instruction) : List Bytes :=
  Bytes.ofString i.op.name :: i.operands.flatMap fun n => [[32], Decimal.ofNat n.toNat]

/-- The address reached by taking the jump at an address, if there is one. -/
def target? (address : Int64) (i : Instruction) : Option Int64 :=
  match i.op with
  | .jez => some (address + Int64.ofNat i.arg.toNat + 1)
  | .jnz => some (address - Int64.ofNat i.arg.toNat + 1)
  | _ => none

/-- The pieces of the note about where a jump leads. -/
def notePieces (address : Int64) (i : Instruction) : List Bytes :=
  match target? address i with
  | some target =>
    [Bytes.ofString "\t( ", Decimal.ofInt target.toInt, Bytes.ofString " )"]
  | none => []

/-- Width of the address field. -/
def addressWidth : Int := 10

/-- The pieces of one line. -/
def linePieces (address : Int64) (i : Instruction) : List Bytes :=
  [Decimal.alignRight addressWidth (Decimal.ofInt address.toInt), [9]] ++
    instructionPieces i ++ notePieces address i ++ [[10]]

/-- The pieces of the listing of a program whose first instruction has the
    address `base`. -/
def listingPieces (base : Int64) (p : Program) : List Bytes :=
  p.toList.zipIdx.flatMap fun (i, k) => linePieces (base + Int64.ofNat k) i

/-- Write an instruction. -/
def printInstruction (i : Instruction) (p : Printer) : Printer :=
  p.printAll (instructionPieces i)

/-- Write one line. -/
def printLine (address : Int64) (i : Instruction) (p : Printer) : Printer :=
  let addressed :=
    p.printAll [Decimal.alignRight addressWidth (Decimal.ofInt address.toInt), [9]]
  (printInstruction i addressed).printAll (notePieces address i ++ [[10]])

/-- Write lines from the index `k` on, until one fails. -/
def printLines (base : Int64) (k : Nat) : List Instruction → Printer → Printer
  | [], p => p
  | i :: rest, p =>
    let p := printLine (base + Int64.ofNat k) i p
    if p.failure.isSome then p else printLines base (k + 1) rest p

/-- Write the listing of a program. -/
def list (base : Int64) (p : Program) (w : Writer) : Printer :=
  printLines base 0 p.toList { writer := w }

/-- Write the instruction at an index, if the program has one there. -/
def listOne? (p : Program) (pc : Int64) (w : Writer) : Option Printer :=
  if pc < 0 then none else p[pc.toInt.toNat]?.map fun i => printInstruction i { writer := w }

theorem printLine_eq (address : Int64) (i : Instruction) (p : Printer) :
    printLine address i p = p.printAll (linePieces address i) := by
  simp [printLine, printInstruction, linePieces, Printer.printAll]

theorem printLines_eq (base : Int64) (k : Nat) (is : List Instruction) (p : Printer) :
    printLines base k is p =
      p.printAll ((is.zipIdx k).flatMap fun (i, k) => linePieces (base + Int64.ofNat k) i) := by
  induction is generalizing k p with
  | nil => rfl
  | cons i rest ih =>
    rw [printLines, List.zipIdx_cons, List.flatMap_cons, Printer.printAll_append, printLine_eq]
    dsimp only
    split
    -- what is printed after a failure does not reach the writer
    · next failed => rw [Printer.printAll_of_failed failed]
    · rw [ih]

/-- A listing is its pieces, one after the other. -/
theorem list_eq_printAll (base : Int64) (p : Program) (w : Writer) :
    list base p w = Printer.printAll (listingPieces base p) { writer := w } :=
  printLines_eq base 0 p.toList { writer := w }

end Assembly

end TapeLang
