/-! # Instructions

An instruction is an opcode with two 16-bit operands, of which an opcode uses
none, the first, or both. Besides the primitive operations there are fused
ones that stand for a whole loop. Bytes from 16 on name no operation; a
program may hold them, but running one is an error.
-/

namespace TapeLang

/-- What an instruction does. -/
inductive Opcode where
  /-- Stop the program. -/
  | halt
  /-- Add the operand to the current cell. -/
  | add
  /-- Move right by the operand. -/
  | right
  /-- Move left by the operand. -/
  | left
  /-- Skip forward by the operand if the current cell is zero. -/
  | jez
  /-- Skip back by the operand if the current cell is not zero. -/
  | jnz
  /-- Clear the current cell. -/
  | zero
  /-- Move left by the operand until a cell is zero. -/
  | searchl
  /-- Move right by the operand until a cell is zero. -/
  | searchr
  /-- Add the current cell to one on the left, and clear it. -/
  | amovel
  /-- Add the current cell to one on the right, and clear it. -/
  | amover
  /-- Clear as many cells as the operand says, moving left. -/
  | zerol
  /-- Clear as many cells as the operand says, moving right. -/
  | zeror
  /-- Diffuse: while the current cell is not zero, move the cell at the first
      operand's offset right by the second operand, then step left by it. -/
  | mandel
  /-- Write the current cell to the output. -/
  | write
  /-- Read the current cell from the input. -/
  | read
  /-- The byte `16 + n`, which names no operation. -/
  | unassigned (n : Fin 240)
  deriving Repr, DecidableEq, Inhabited

namespace Opcode

/-- The named opcodes in the order of their bytes. -/
def named : List Opcode :=
  [.halt, .add, .right, .left, .jez, .jnz, .zero, .searchl, .searchr, .amovel, .amover,
    .zerol, .zeror, .mandel, .write, .read]

/-- The opcode of a byte. -/
def ofByte (b : UInt8) : Opcode :=
  match named[b.toNat]? with
  | some op => op
  | none => .unassigned (Fin.ofNat 240 (b.toNat - 16))

/-- The byte of an opcode. -/
def toByte : Opcode → UInt8
  | .halt => 0
  | .add => 1
  | .right => 2
  | .left => 3
  | .jez => 4
  | .jnz => 5
  | .zero => 6
  | .searchl => 7
  | .searchr => 8
  | .amovel => 9
  | .amover => 10
  | .zerol => 11
  | .zeror => 12
  | .mandel => 13
  | .write => 14
  | .read => 15
  | .unassigned n => (16 + n.val).toUInt8

/-- The mnemonic. -/
def name : Opcode → String
  | .halt => "halt"
  | .add => "add"
  | .right => "right"
  | .left => "left"
  | .jez => "jez"
  | .jnz => "jnz"
  | .zero => "zero"
  | .searchl => "searchl"
  | .searchr => "searchr"
  | .amovel => "amovel"
  | .amover => "amover"
  | .zerol => "zerol"
  | .zeror => "zeror"
  | .mandel => "mandel"
  | .write => "write"
  | .read => "read"
  | .unassigned n => s!"op({16 + n.val})"

/-- How many operands are used. -/
def arity : Opcode → Nat
  | .add | .right | .left | .jez | .jnz | .searchl | .searchr | .amovel | .amover
  | .zerol | .zeror => 1
  | .mandel => 2
  | .halt | .zero | .write | .read | .unassigned _ => 0

/-- Whether the opcode names an operation. -/
def isNamed : Opcode → Bool
  | .unassigned _ => false
  | _ => true

/-- The opcode with the given mnemonic. -/
def ofName? (name : String) : Option Opcode :=
  named.find? (·.name == name)

end Opcode

/-- An opcode with its operands. Unused operands are normally zero. -/
structure Instruction where
  op : Opcode
  arg : UInt16 := 0
  arg2 : UInt16 := 0
  deriving Repr, DecidableEq, Inhabited

/-- A sequence of instructions. -/
abbrev Program := Array Instruction

namespace Instruction

/-- The largest operand. -/
def maxOperand : Nat := 65535

/-- Add to the current cell. -/
def add (delta : UInt8) : Instruction := ⟨.add, delta.toUInt16, 0⟩

/-- Move right. -/
def right (n : UInt16) : Instruction := ⟨.right, n, 0⟩

/-- Move left. -/
def left (n : UInt16) : Instruction := ⟨.left, n, 0⟩

/-- Skip forward on a zero cell. -/
def jez (distance : UInt16) : Instruction := ⟨.jez, distance, 0⟩

/-- Skip back on a non-zero cell. -/
def jnz (distance : UInt16) : Instruction := ⟨.jnz, distance, 0⟩

/-- Clear the current cell. -/
def zero : Instruction := ⟨.zero, 0, 0⟩

/-- Search leftward for a zero cell. -/
def searchl (stride : UInt16) : Instruction := ⟨.searchl, stride, 0⟩

/-- Search rightward for a zero cell. -/
def searchr (stride : UInt16) : Instruction := ⟨.searchr, stride, 0⟩

/-- Move the current cell's value leftward. -/
def amovel (distance : UInt16) : Instruction := ⟨.amovel, distance, 0⟩

/-- Move the current cell's value rightward. -/
def amover (distance : UInt16) : Instruction := ⟨.amover, distance, 0⟩

/-- Clear cells leftward. -/
def zerol (n : UInt16) : Instruction := ⟨.zerol, n, 0⟩

/-- Clear cells rightward. -/
def zeror (n : UInt16) : Instruction := ⟨.zeror, n, 0⟩

/-- Diffuse. -/
def mandel (x n : UInt16) : Instruction := ⟨.mandel, x, n⟩

/-- Write the current cell. -/
def write : Instruction := ⟨.write, 0, 0⟩

/-- Read the current cell. -/
def read : Instruction := ⟨.read, 0, 0⟩

/-- Stop. -/
def halt : Instruction := ⟨.halt, 0, 0⟩

/-- The operands that the opcode uses. -/
def operands (i : Instruction) : List UInt16 :=
  [i.arg, i.arg2].take i.op.arity

/-- The mnemonic followed by the used operands. -/
def text (i : Instruction) : String :=
  " ".intercalate (i.op.name :: i.operands.map fun n => toString n.toNat)

end Instruction

end TapeLang
