import TapeLang.Block.Basic
import TapeLang.Peephole.Optimize

/-! # From blocks to programs

Runs of increments and decrements become one addition, runs of moves as few
moves as their net displacement needs; a run without net effect becomes
nothing. A loop becomes its body between a pair of jumps. Bodies are lowered,
and optimized if asked for, before the jumps around them are made.
-/

namespace TapeLang

/-- How blocks are lowered. -/
structure Lowering where
  /-- Optimize every body. -/
  peephole : Bool := true
  /-- Repeat the passes of the optimizer until nothing changes. -/
  fixpoint : Bool := true
  deriving Repr, DecidableEq

/-- Why a block cannot be lowered. -/
inductive LowerError where
  /-- A command number means nothing. -/
  | unknownCommand (c : Command)
  /-- The body of a loop is longer than a jump can reach. -/
  | bodyTooLarge (size : Nat)
  deriving Repr, DecidableEq

/-- The text of a lowering error. -/
def LowerError.message : LowerError → String
  | .unknownCommand c => s!"unknown node kind {c.name}"
  | .bodyTooLarge size => s!"loop body too large: {size} instructions"

/-- A run of commands that are lowered together. -/
inductive Pending where
  /-- No run. -/
  | idle
  /-- Increments and decrements with this net effect. -/
  | adding (delta : UInt8)
  /-- Moves with this net displacement to the right. -/
  | moving (displacement : Int)
  deriving Repr, DecidableEq

/-- What was made of a block. -/
structure Lowered where
  code : Array Instruction
  tallies : List Peephole.Tally
  deriving Repr, DecidableEq

namespace Pending

/-- As few moves in one direction as a distance needs: the longest while it is
    beyond them, and one for what is left. -/
@[semireducible] def moves (move : UInt16 → Instruction) (distance : Nat) : List Instruction :=
  if Instruction.maxOperand < distance then
    move Instruction.maxOperand.toUInt16 :: moves move (distance - Instruction.maxOperand)
  else if 0 < distance then [move distance.toUInt16]
  else []
termination_by distance
decreasing_by
  simp only [Instruction.maxOperand] at *
  omega

/-- The instructions of a run. -/
def emit : Pending → List Instruction
  | .idle => []
  | .adding delta => if delta = 0 then [] else [.add delta]
  | .moving displacement =>
    if displacement < 0 then moves .left displacement.natAbs else moves .right displacement.natAbs

/-- Add to a run of increments and decrements. The run goes on, or the
    instructions of the one before it are due. -/
def add (delta : UInt8) : Pending → List Instruction × Pending
  | .adding d => ([], .adding (d + delta))
  | p => (p.emit, .adding delta)

/-- Add to a run of moves. The run goes on, or the instructions of the one
    before it are due. -/
def move (displacement : Int) : Pending → List Instruction × Pending
  | .moving d => ([], .moving (d + displacement))
  | p => (p.emit, .moving displacement)

/-- Take the next command: the instructions that are due, and the run that
    goes on. -/
def take (p : Pending) : Command → Except LowerError (List Instruction × Pending)
  | .inc => .ok (p.add 1)
  | .dec => .ok (p.add 255)
  | .right => .ok (p.move 1)
  | .left => .ok (p.move (-1))
  | .output => .ok (p.emit ++ [.write], .idle)
  | .input => .ok (p.emit ++ [.read], .idle)
  | .halt => .ok (p.emit ++ [.halt], .idle)
  | .unknown n => .error (.unknownCommand (.unknown n))

end Pending

namespace Lowered

/-- Optimize if asked for. -/
def polish (how : Lowering) (l : Lowered) : Lowered :=
  if how.peephole then
    let (code, tallies) := Peephole.optimize how.fixpoint l.code
    ⟨code, l.tallies ++ tallies⟩
  else l

/-- The longest body whose jumps reach around it. -/
def maxBody : Nat := Instruction.maxOperand - 1

/-- Put a pair of jumps around a body, after the instructions of `before`. -/
def enclose (before : Array Instruction) (body : Lowered) : Except LowerError Lowered :=
  if maxBody < body.code.size then .error (.bodyTooLarge body.code.size)
  else
    let distance := (body.code.size + 1).toUInt16
    .ok ⟨(before.push (.jez distance) ++ body.code).push (.jnz distance), body.tallies⟩

end Lowered

namespace Block

/-- Lower a block after `before`, of which the run `pending` has not been
    emitted. -/
def lowerAfter (how : Lowering) (before : Lowered) (pending : Pending) :
    Block → Except LowerError Lowered
  | .empty => .ok ⟨before.code ++ pending.emit, before.tallies⟩
  | .command c rest =>
    match pending.take c with
    | .error e => .error e
    | .ok (due, pending) =>
      lowerAfter how ⟨before.code ++ due, before.tallies⟩ pending rest
  | .loop body rest =>
    match lowerAfter how ⟨#[], before.tallies⟩ .idle body with
    | .error e => .error e
    | .ok lowered =>
      match Lowered.enclose (before.code ++ pending.emit) (lowered.polish how) with
      | .error e => .error e
      | .ok before => lowerAfter how before .idle rest

/-- The program of a block, and the tallies of the optimizer, inner loops
    first. -/
def lower (how : Lowering) (b : Block) : Except LowerError Lowered :=
  match lowerAfter how ⟨#[], []⟩ .idle b with
  | .error e => .error e
  | .ok lowered => .ok (lowered.polish how)

end Block

end TapeLang
