import TapeLang.Instruction
import TapeLang.Stream.Channels
import TapeLang.Tape

/-! # The effect of one instruction

An instruction acts on a tape and its channels and says how control goes on. The
searching and diffusing instructions act in rounds: while the current cell is
not zero they do one round and ask to be executed again, so every execution
is finite.
-/

namespace TapeLang

/-- What instructions act on. -/
structure State where
  tape : Tape
  channels : Channels

/-- Why an instruction could not be executed. -/
inductive Trap where
  /-- Input or output failed; the opcode names the direction. -/
  | io (op : Opcode) (failure : Failure)
  /-- The tape was touched outside its cells. -/
  | fault (f : Fault)
  /-- The opcode names no operation. -/
  | invalid (op : Opcode)
  deriving Repr, DecidableEq

/-- How control goes on after an instruction. -/
inductive Control where
  /-- To the following instruction. -/
  | next
  /-- To the same instruction, for another round. -/
  | again
  /-- By an offset, in addition to the step to the following instruction. -/
  | jump (offset : Int)
  /-- Nowhere: the program is done. -/
  | stop
  deriving Repr, DecidableEq

namespace State

/-- Apply a function to the tape. -/
def onTape (f : Tape → Tape) (s : State) : State :=
  { s with tape := f s.tape }

/-- Go on only if a position may be touched. -/
def touching (position : Int64) (act : State → State × Except Trap Control) (s : State) :
    State × Except Trap Control :=
  match s.tape.fault? position with
  | some f => (s, .error (.fault f))
  | none => act s

/-- Do a round while the current cell is not zero. -/
def whileCell (round : Tape → Tape) (s : State) : State × Except Trap Control :=
  touching s.tape.ptr (fun s =>
    if s.tape.cell = 0 then (s, .ok .next) else (s.onTape round, .ok .again)) s

/-- Add the current cell to the cell at `target` and clear it. The target is
    touched first. -/
def pourTo (target : Int64) (s : State) : State × Except Trap Control :=
  touching target (fun s =>
    touching s.tape.ptr (fun s =>
      (s.onTape fun t => t.pour t.ptr target, .ok .next)) s) s

/-- Clear an area. Nothing is touched by an empty area, nor by one that
    reaches around the tape, which is cleared as a whole. -/
def clearArea (n : Nat) (clear : Tape → Tape) (s : State) : State × Except Trap Control :=
  if 0 < n ∧ n < s.tape.size then
    touching s.tape.ptr (fun s => (s.onTape clear, .ok .next)) s
  else (s.onTape clear, .ok .next)

/-- Write the current cell, if there is an output. -/
def write (s : State) : State × Except Trap Control :=
  if s.channels.output.isNone then (s, .ok .next)
  else match s.tape.rangeFault? with
    | some f => (s, .error (.fault f))
    | none =>
      let ⟨tape, channels⟩ := s
      match channels.write tape.cell with
      | (channels, some failure) => (⟨tape, channels⟩, .error (.io .write failure))
      | (channels, none) => (⟨tape, channels⟩, .ok .next)

/-- Store what the input delivered: a byte goes to the current cell, at the
    end of the input the cell is left as it is. -/
def store (outcome : ByteRead) (s : State) : State × Except Trap Control :=
  match outcome with
  | .byte b => touching s.tape.ptr (fun s => (s.onTape (·.setCell b), .ok .next)) s
  | .ended => (s, .ok .next)
  | .failed message => (s, .error (.io .read (Failure.ofRead message)))

/-- Flush the output and read the current cell, if there is an input. -/
def read (s : State) : State × Except Trap Control :=
  if s.channels.input = .absent then (s, .ok .next)
  else
    let ⟨tape, channels⟩ := s
    match channels.flush with
    | (channels, some failure) => (⟨tape, channels⟩, .error (.io .write failure))
    | (channels, none) =>
      let (channels, outcome) := channels.pullByte
      store outcome ⟨tape, channels⟩

end State

namespace Instruction

/-- The first operand as a distance. -/
def distance (i : Instruction) : Int64 :=
  Int64.ofNat i.arg.toNat

/-- The second operand as a distance. -/
def distance2 (i : Instruction) : Int64 :=
  Int64.ofNat i.arg2.toNat

/-- Execute an instruction. -/
def exec (i : Instruction) (s : State) : State × Except Trap Control :=
  match i.op with
  | .halt => (s, .ok .stop)
  | .add => s.touching s.tape.ptr fun s => (s.onTape (·.bump i.arg.toUInt8), .ok .next)
  | .right => (s.onTape (·.right i.distance), .ok .next)
  | .left => (s.onTape (·.left i.distance), .ok .next)
  | .jez => s.touching s.tape.ptr fun s =>
    if s.tape.cell = 0 then (s, .ok (.jump i.arg.toNat)) else (s, .ok .next)
  | .jnz => s.touching s.tape.ptr fun s =>
    if s.tape.cell = 0 then (s, .ok .next) else (s, .ok (.jump (-i.arg.toNat)))
  | .zero => s.touching s.tape.ptr fun s => (s.onTape (·.setCell 0), .ok .next)
  | .searchl => s.whileCell (·.left i.distance)
  | .searchr => s.whileCell (·.right i.distance)
  | .amovel => s.pourTo (s.tape.leftOf s.tape.ptr i.distance)
  | .amover => s.pourTo (s.tape.rightOf s.tape.ptr i.distance)
  | .zerol => s.clearArea i.arg.toNat (·.zeroLeft i.arg.toNat)
  | .zeror => s.clearArea i.arg.toNat (·.zeroRight i.arg.toNat)
  | .mandel => s.whileCell (·.diffuse i.distance i.distance2)
  | .write => s.write
  | .read => s.read
  | .unassigned _ => (s, .error (.invalid i.op))

end Instruction

end TapeLang
