import TapeLang.Assembly.Word
import TapeLang.Block.Token
import TapeLang.Instruction
import TapeLang.Text.IntLiteral
import TapeLang.Text.Quoted

/-! # The assembler

An assembly source is a sequence of instructions, each a mnemonic or its alias
followed by as many integers as the opcode has operands. A comment goes from
the word `(` to the word `)` or the end of the source. Jump distances are taken
as they are written.
-/

namespace TapeLang

namespace Assembly

/-- The alias of an opcode, if it has one. -/
def alias? : Opcode → Option String
  | .add => some "+"
  | .right => some ">"
  | .left => some "<"
  | .jez => some "["
  | .jnz => some "]"
  | .write => some "."
  | .read => some ","
  | _ => none

/-- All words that name an opcode. -/
def mnemonics : List (Bytes × Opcode) :=
  Opcode.named.flatMap fun op =>
    (op.name :: (alias? op).toList).map fun word => (Bytes.ofString word, op)

/-- The opcode that a word names. -/
def opcode? (word : Bytes) : Option Opcode :=
  mnemonics.lookup word

/-- The operand that a word gives an opcode. Additions take values from -128 to
    255, modulo 256; other operands are 16-bit words. -/
def operand? (op : Opcode) (word : Bytes) : Option UInt16 :=
  match IntLiteral.parse 32 word with
  | .error _ => none
  | .ok v =>
    if op = .add then
      if -128 ≤ v ∧ v ≤ 255 then some (v % 256).toNat.toUInt16 else none
    else if 0 ≤ v ∧ v ≤ Instruction.maxOperand then some v.toNat.toUInt16
    else none

/-- The instruction of an opcode and its operands. -/
def instruction (op : Opcode) (operands : List UInt16) : Instruction :=
  ⟨op, operands[0]?.getD 0, operands[1]?.getD 0⟩

/-- An assembly source read up to some item. -/
structure Assembler where
  /-- Whether a comment is open. -/
  inComment : Bool := false
  /-- The instruction that still lacks operands, and those it has. -/
  pending : Option (Opcode × List UInt16) := none
  code : Array Instruction := #[]
  complaints : Array Complaint := #[]
  deriving Repr, DecidableEq

namespace Assembler

/-- Complain about a position. -/
def complain (a : Assembler) (position : Position) (text : Bytes) : Assembler :=
  { a with complaints := a.complaints.push ⟨position, text⟩ }

/-- Take a word as an operand of `op`, which has the operands `present`. -/
def takeOperand (a : Assembler) (op : Opcode) (present : List UInt16) (position : Position)
    (word : Bytes) : Assembler :=
  match operand? op word with
  | none =>
    { a with pending := none }.complain position
      (Bytes.ofString s!"Invalid operand for {op.name}: " ++ word)
  | some v =>
    let operands := present ++ [v]
    if operands.length = op.arity then
      { a with pending := none, code := a.code.push (instruction op operands) }
    else { a with pending := some (op, operands) }

/-- Take a word as a mnemonic. -/
def takeMnemonic (a : Assembler) (position : Position) (word : Bytes) : Assembler :=
  match opcode? word with
  | none => a.complain position (Bytes.ofString "Unknown mnemonic " ++ word)
  | some op =>
    if op.arity = 0 then { a with code := a.code.push (instruction op []) }
    else { a with pending := some (op, []) }

/-- Take the next item. -/
def push (a : Assembler) : Item → Assembler
  | .problem c => a.complain c.position c.text
  | .stray position c =>
    if a.inComment then a
    else a.complain position (Bytes.ofString ("Unexpected character " ++ Quoted.char c))
  | .word position word =>
    if a.inComment then
      if word = Bytes.ofString ")" then { a with inComment := false } else a
    else if word = Bytes.ofString "(" then { a with inComment := true }
    else match a.pending with
      | some (op, present) => a.takeOperand op present position word
      | none => a.takeMnemonic position word

/-- Reach the end of the source. -/
def finish (a : Assembler) (position : Position) : Assembler :=
  match a.pending with
  | some (op, _) => a.complain position (Bytes.ofString s!"Missing operand for {op.name}")
  | none => a

end Assembler

/-- Assemble a source. On failure the first complaints are given. -/
def assemble (chunks : List Chunk) : Except (List Complaint) Program :=
  let glyphs := Glyph.ofChunks chunks
  let a := ((items glyphs).foldl Assembler.push {}).finish (Glyph.endPosition glyphs)
  match a.complaints.toList with
  | [] => .ok a.code
  | complaints => .error (complaints.take Complaint.limit)

end Assembly

end TapeLang
