import TapeLang.Machine.Exec

/-! # The machine

A machine runs a program on a state from a program counter. A run ends well at
a halt instruction or past the last instruction, after the output has been
flushed. It ends with an error where an instruction traps; the program counter
then still points at that instruction.

`Machine.step` is one step, `Machine.run` a run of at most so many steps: it
is `none` exactly if the run has not ended by then.
-/

namespace TapeLang

/-- Where control is in a program: an index, which may lie before its first
    instruction or past its last. No program is so long that an index on it
    would wrap, so this is a number and not a word. -/
structure Address where
  toInt : Int
  deriving Repr, DecidableEq

instance (n : Nat) : OfNat Address n :=
  ⟨⟨n⟩⟩

/-- A word says where control is. -/
instance : Coe Int64 Address :=
  ⟨fun word => ⟨word.toInt⟩⟩

namespace Address

/-- The word of an address. -/
def toWord (a : Address) : Int64 :=
  Int64.ofInt a.toInt

/-- The address of the following instruction. -/
def next (a : Address) : Address :=
  ⟨a.toInt + 1⟩

/-- The address by an offset further. -/
def move (offset : Int) (a : Address) : Address :=
  ⟨a.toInt + offset⟩

end Address

/-- A program on its way. -/
structure Machine where
  program : Program
  /-- Where the instruction to be executed stands. -/
  pc : Address := 0
  /-- Number of instructions executed since the run started. No run is so long that
      a word would wrap, so this is a number. -/
  count : Nat := 0
  state : State

/-- An input or output failure at an instruction. -/
structure IoError where
  op : Opcode
  pc : Address
  failure : Failure
  deriving Repr, DecidableEq

/-- Why a run ended without success. -/
inductive RunError where
  /-- Input or output failed. -/
  | io (e : IoError)
  /-- The instruction at `pc`, or the program itself, was touched out of range. -/
  | fault (pc : Address) (f : Fault)
  /-- The opcode at `pc` names no operation. -/
  | invalid (pc : Address) (op : Opcode)
  deriving Repr, DecidableEq

/-- How a run ended. -/
abbrev Outcome := Except RunError Unit

/-- The text of an input or output failure. -/
def IoError.message (e : IoError) : String :=
  let what := match e.op with
    | .read => "input"
    | .write => "output"
    | op => op.name
  s!"{what} failed at pc {e.pc.toInt}: {e.failure.message}"

/-- The text of an error. -/
def RunError.message : RunError → String
  | .io e => e.message
  | .fault pc f => s!"pc {pc.toInt}: {f.message}"
  | .invalid pc op => s!"pc {pc.toInt}: invalid opcode {op.name}"

/-- The error of a trap at `pc`. -/
def Trap.toError (pc : Address) : Trap → RunError
  | .io op failure => .io ⟨op, pc, failure⟩
  | .fault f => .fault pc f
  | .invalid op => .invalid pc op

namespace Machine

/-- The tape. -/
def tape (m : Machine) : Tape :=
  m.state.tape

/-- End the run well if the output can be flushed. -/
def finish (m : Machine) : Machine × Option Outcome :=
  let ⟨program, pc, count, ⟨tape, channels⟩⟩ := m
  match channels.flush with
  | (channels, some failure) =>
    (⟨program, pc, count, ⟨tape, channels⟩⟩, some (.error (.io ⟨.write, pc, failure⟩)))
  | (channels, none) => (⟨program, pc, count, ⟨tape, channels⟩⟩, some (.ok ()))

/-- Execute an instruction at the program counter. -/
def perform (i : Instruction) (m : Machine) : Machine × Option Outcome :=
  let ⟨program, pc, count, state⟩ := m
  match i.exec state with
  | (state, .error trap) => (⟨program, pc, count, state⟩, some (.error (trap.toError pc)))
  | (state, .ok .again) => (⟨program, pc, count, state⟩, none)
  | (state, .ok .next) => (⟨program, pc.next, count + 1, state⟩, none)
  | (state, .ok (.jump offset)) => (⟨program, (pc.move offset).next, count + 1, state⟩, none)
  | (state, .ok .stop) => finish ⟨program, pc, count + 1, state⟩

/-- One step. The outcome is given once the run has ended. -/
def step (m : Machine) : Machine × Option Outcome :=
  if m.pc.toInt < 0 then (m, some (.error (.fault m.pc (.index m.pc.toWord m.program.size))))
  else match m.program[m.pc.toInt.toNat]? with
    | none => m.finish
    | some i => m.perform i

/-- Go on for at most `limit` steps. -/
def resume : (limit : Nat) → Machine → Option (Machine × Outcome)
  | 0, _ => none
  | limit + 1, m =>
    match m.step with
    | (m, some outcome) => some (m, outcome)
    | (m, none) => resume limit m

/-- A run that has ended does not depend on the limit. -/
theorem resume_mono {limit higher : Nat} (le : limit ≤ higher) {m : Machine}
    {ended : Machine × Outcome} (h : resume limit m = some ended) :
    resume higher m = some ended := by
  induction limit generalizing higher m with
  | zero => simp [resume] at h
  | succ limit ih =>
    obtain ⟨higher, rfl⟩ : ∃ k, higher = k + 1 := ⟨higher - 1, by omega⟩
    unfold resume at h ⊢
    split at h
    · exact h
    · exact ih (by omega) h

/-- Run for at most `limit` steps, counting instructions from zero. -/
def run (limit : Nat) (m : Machine) : Option (Machine × Outcome) :=
  resume limit { m with count := 0 }

/-- More steps than any run takes in practice. -/
def patience : Nat := 4611686018427387904

end Machine

end TapeLang
