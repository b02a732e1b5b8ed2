import TapeLang.Block.Basic
import TapeLang.Machine.Exec

/-! # Walking a block

What a block means, said without a program for it: its commands act on a state
one after the other, and a loop is entered again as long as the current cell is
not zero. A halt ends the whole walk, however deep it stands. Like the run of a
machine, a walk ends well once the output has been flushed.

`Walk.step` looks at one node of the tree, `Walk.run` is a walk of at most so
many steps: it is `none` exactly if the walk has not ended by then.
-/

namespace TapeLang

/-- Carry out a command. A number that means no command does nothing. -/
def Command.exec (c : Command) (s : State) : State × Except Trap Control :=
  match c with
  | .right => (s.onTape (·.right 1), .ok .next)
  | .left => (s.onTape (·.left 1), .ok .next)
  | .inc => (s.onTape (·.bump 1), .ok .next)
  | .dec => (s.onTape (·.bump 255), .ok .next)
  | .output => s.write
  | .input => s.read
  | .halt => (s, .ok .stop)
  | .unknown _ => (s, .ok .next)

/-- A block on its way. -/
structure Walk where
  /-- What is to be done now. -/
  block : Block
  /-- What is to be done after it, from the innermost loop outward. -/
  after : List Block := []
  state : State

namespace Walk

/-- End the walk well if the output can be flushed. -/
def finish (w : Walk) : Walk × Option (Except Trap Unit) :=
  let ⟨block, after, ⟨tape, channels⟩⟩ := w
  match channels.flush with
  | (channels, some failure) =>
    (⟨block, after, ⟨tape, channels⟩⟩, some (.error (.io .write failure)))
  | (channels, none) => (⟨block, after, ⟨tape, channels⟩⟩, some (.ok ()))

/-- One step. The outcome is given once the walk has ended. -/
def step (w : Walk) : Walk × Option (Except Trap Unit) :=
  let ⟨block, after, state⟩ := w
  match block with
  | .empty =>
    match after with
    | [] => finish ⟨.empty, [], state⟩
    | outer :: after => (⟨outer, after, state⟩, none)
  | .command c rest =>
    match c.exec state with
    | (state, .error trap) => (⟨.command c rest, after, state⟩, some (.error trap))
    | (state, .ok .stop) => finish ⟨.command c rest, after, state⟩
    | (state, .ok _) => (⟨rest, after, state⟩, none)
  | .loop body rest =>
    if state.tape.cell = 0 then (⟨rest, after, state⟩, none)
    else (⟨body, .loop body rest :: after, state⟩, none)

/-- Go on for at most `limit` steps. -/
def run : (limit : Nat) → Walk → Option (Walk × Except Trap Unit)
  | 0, _ => none
  | limit + 1, w =>
    match w.step with
    | (w, some outcome) => some (w, outcome)
    | (w, none) => run limit w

end Walk

end TapeLang
