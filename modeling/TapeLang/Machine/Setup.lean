import TapeLang.Machine.Run

/-! # Setting up a machine

A new machine has a blank tape of the default size, no input and no output.
Settings are applied in order up to the first that fails.
-/

namespace TapeLang

/-- Something that can be set on a machine. -/
inductive Setting where
  /-- A blank tape of this size. The pointer is not moved. -/
  | tapeSize (size : Int64)
  /-- A reader on top of the input stack. -/
  | input (r : Reader)
  /-- The output. -/
  | output (w : Option Writer)

namespace Machine

/-- Put a reader on top of the input stack. -/
def pushInput (r : Reader) (m : Machine) : Machine :=
  { m with state.channels.input := m.state.channels.input.push r }

/-- Apply one setting. -/
def set (m : Machine) : Setting → Except SizeProblem Machine
  | .tapeSize size =>
    match Tape.ofSize size with
    | .error problem => .error problem
    | .ok tape => .ok { m with state.tape := { tape with ptr := m.state.tape.ptr } }
  | .input r => .ok (m.pushInput r)
  | .output w => .ok { m with state.channels.output := w }

/-- Apply settings in order; those before a failing one stay in effect. -/
def configure : List Setting → Machine → Machine × Option SizeProblem
  | [], m => (m, none)
  | s :: rest, m =>
    match m.set s with
    | .error problem => (m, some problem)
    | .ok m => configure rest m

/-- A new machine for a program. -/
def new (program : Program) (settings : List Setting) : Except SizeProblem Machine :=
  match configure settings { program, state := { tape := Tape.default, channels := {} } } with
  | (_, some problem) => .error problem
  | (m, none) => .ok m

/-- The cell under the pointer. -/
def cell (m : Machine) : Except Fault UInt8 :=
  match m.tape.fault? m.tape.ptr with
  | some f => .error f
  | none => .ok m.tape.cell

/-- Start over: clear the tape and put pointer and program counter to zero. -/
def reset (m : Machine) : Machine :=
  { m with pc := 0, state.tape := { m.state.tape.erase with ptr := 0 } }

end Machine

end TapeLang
