import TapeLang.Proofs.Resumption

/-! # What a step can do

A step executes the instruction at the program counter, or ends the run with a flush,
or stands before the first instruction. On the channels it does one of four things,
and it asks for a byte only behind a flush that succeeded.
-/

namespace TapeLang

theorem follow_last {σ ω : Type} {step : σ → σ × Option ω} {x y : σ} {outcome : ω} {n : Nat}
    (ended : follow step n x = (y, some outcome)) :
    ∃ k z, follow step k x = (z, none) ∧ step z = (y, some outcome) := by
  induction n generalizing x with
  | zero => cases ended
  | succ n ih =>
      rcases moved : step x with ⟨z, _ | last⟩
      · rw [follow_succ moved] at ended
        obtain ⟨k, z', reached, stopped⟩ := ih ended
        exact ⟨k + 1, z', by rw [follow_succ moved, reached], stopped⟩
      · rw [follow_ended moved] at ended
        cases ended
        exact ⟨0, x, rfl, moved⟩

/-- What steps that go on keep holds wherever they lead. -/
theorem reached_keeps {σ ω : Type} {step : σ → σ × Option ω} {x y : σ} {I : σ → Prop} {n : Nat}
    (keeps : ∀ k y z, follow step k x = (y, none) → step y = (z, none) → I y → I z) (holds : I x)
    (reached : follow step n x = (y, none)) : I y := by
  induction n generalizing x with
  | zero =>
      cases reached
      exact holds
  | succ n ih =>
      rcases moved : step x with ⟨z, _ | last⟩
      · rw [follow_succ moved] at reached
        refine ih ?_ (keeps 0 x z rfl moved holds) reached
        intro k y z' reached
        exact keeps (k + 1) y z' (by rw [follow_succ moved, reached])
      · rw [follow_ended moved] at reached
        cases reached

/-- Where control goes from an address. -/
def Control.target (pc : Address) : Control → Address
  | .next => pc.next
  | .again | .stop => pc
  | .jump offset => (pc.move offset).next

/-- How many instructions are done with. -/
def Control.cost : Control → Nat
  | .again => 0
  | .next | .jump _ | .stop => 1

namespace Machine

variable {m m' : Machine}

inductive Steps (m : Machine) : Machine × Option Outcome → Prop where
  | before (low : m.pc.toInt < 0) :
      Steps m (m, some (.error (.fault m.pc (.index m.pc.toWord m.program.size))))
  | ends (count : Nat) {c : Channels} (unread : ¬ m.Reads)
      (flushed : m.state.channels.flush = (c, none)) :
      Steps m (⟨m.program, m.pc, count, ⟨m.tape, c⟩⟩, some (.ok ()))
  | unflushed (count : Nat) {c : Channels} {failure : Failure}
      (flushed : m.state.channels.flush = (c, some failure)) :
      Steps m (⟨m.program, m.pc, count, ⟨m.tape, c⟩⟩, some (.error (.io ⟨.write, m.pc, failure⟩)))
  | traps {i : Instruction} {s : State} {trap : Trap} (found : m.current? = some i)
      (act : i.exec m.state = (s, .error trap)) :
      Steps m (⟨m.program, m.pc, m.count, s⟩, some (.error (trap.toError m.pc)))
  | goes {i : Instruction} {s : State} {control : Control} (found : m.current? = some i)
      (act : i.exec m.state = (s, .ok control)) (moving : control ≠ .stop) :
      Steps m (⟨m.program, control.target m.pc, m.count + control.cost, s⟩, none)

theorem step_of_low (low : m.pc.toInt < 0) :
    m.step = (m, some (.error (.fault m.pc (.index m.pc.toWord m.program.size)))) := by
  rw [step, if_pos low]

theorem steps_finish (unread : ¬ m.Reads) (count : Nat) : m.Steps (finish { m with count }) := by
  obtain ⟨program, pc, n, ⟨t, c⟩⟩ := m
  rcases flushed : c.flush with ⟨c', _ | failure⟩
  · rw [finish_of_flushed (by rw [flushed]), flushed]
    exact .ends count unread flushed
  · rw [finish_of_failed (by rw [flushed]), flushed]
    exact .unflushed count flushed

theorem not_reads_of_none (nothing : m.current? = none) : ¬ m.Reads := by
  intro ⟨i, found, _⟩
  cases nothing.symm.trans found

theorem reads_iff_of_some {i : Instruction} (found : m.current? = some i) :
    m.Reads ↔ i.op = .read := by
  constructor
  · intro ⟨i', found', read⟩
    cases found.symm.trans found'
    exact read
  · intro read
    exact ⟨i, found, read⟩

theorem steps_step (m : Machine) : m.Steps m.step := by
  cases found : m.current? with
  | none =>
      have nothing := found
      unfold current? at nothing
      split at nothing
      · next low =>
          rw [step_of_low low]
          exact .before low
      · next inside =>
          simp only [step, if_neg inside, nothing]
          exact steps_finish (not_reads_of_none found) m.count
  | some i =>
      rw [step_of_current found]
      rcases act : i.exec m.state with ⟨s, trap | control⟩
      · simp only [perform, act]
        exact .traps found act
      · cases control with
        | next | again | jump =>
            simp only [perform, act]
            exact .goes found act (by simp)
        | stop =>
            have unread : ¬ m.Reads := by
              rw [reads_iff_of_some found, Instruction.op_of_stop act]
              decide
            cases Instruction.exec_stop act
            simp only [perform, act]
            exact steps_finish unread (m.count + 1)

theorem Steps.program {x : Machine × Option Outcome} (steps : m.Steps x) :
    x.1.program = m.program := by
  cases steps <;> rfl

end Machine

/-! ## On the channels -/

/-- What a step does to the channels; it asks for a byte exactly if it reads, there is an input and
    the output could be flushed. -/
inductive Channels.Turn (reads : Prop) (c : Channels) : Channels → Prop where
  | idle (unread : reads → c.input = .absent) : Turn reads c c
  | wrote (unread : ¬ reads) (b : UInt8) : Turn reads c (c.write b).1
  | flushed (unread : reads → c.flush.2 ≠ none) : Turn reads c c.flush.1
  | read (reading : reads) (present : c.input ≠ .absent) (fine : c.flush.2 = none) :
      Turn reads c c.flush.1.pullByte.1

theorem State.turn_write {reads : Prop} (unread : ¬ reads) (s : State) :
    s.channels.Turn reads s.write.1.channels := by
  obtain ⟨t, c⟩ := s
  by_cases absent : c.output.isNone = true
  · rw [write_of_absent absent]
    exact .idle unread.elim
  cases ranged : t.rangeFault? with
  | some f =>
      rw [write_of_fault absent ranged]
      exact .idle unread.elim
  | none =>
      rw [write_of_inRange absent ranged]
      exact .wrote unread t.cell

theorem State.turn_read {reads : Prop} (reading : reads) (s : State) :
    s.channels.Turn reads s.read.1.channels := by
  obtain ⟨t, c⟩ := s
  by_cases absent : c.input = .absent
  · rw [read_of_absent absent]
    exact .idle fun _ => absent
  cases flushed : c.flush.2 with
  | some failure =>
      rw [read_of_failed absent flushed]
      exact .flushed fun _ => by simp [flushed]
  | none =>
      rw [read_of_flushed absent flushed]
      obtain ⟨t', x, stored⟩ := store_apart c.flush.1.pullByte.2 t
      rw [stored]
      exact .read reading absent flushed

theorem Instruction.turn_exec {reads : Prop} {i : Instruction} (same : reads ↔ i.op = .read)
    (s : State) : s.channels.Turn reads (i.exec s).1.channels := by
  by_cases read : i.op = .read
  · simp only [exec, read]
    exact State.turn_read (same.mpr read) s
  have unread : ¬ reads := mt same.mp read
  by_cases write : i.op = .write
  · simp only [exec, write]
    exact State.turn_write unread s
  obtain ⟨t', x, apart⟩ := exec_apart write read s.tape
  rw [apart s.channels]
  exact .idle unread.elim

namespace Machine

variable {m m' : Machine}

theorem Steps.turn {x : Machine × Option Outcome} (steps : m.Steps x) :
    m.state.channels.Turn m.Reads x.1.state.channels := by
  cases steps with
  | before low =>
      have nothing : m.current? = none := by rw [current?, if_pos low]
      exact .idle (not_reads_of_none nothing).elim
  | ends _ unread flushed =>
      have turn := Channels.Turn.flushed (c := m.state.channels) (absurd · unread)
      rwa [flushed] at turn
  | unflushed _ flushed =>
      have failed : m.Reads → m.state.channels.flush.2 ≠ none := fun _ => by simp [flushed]
      have turn := Channels.Turn.flushed failed
      rwa [flushed] at turn
  | traps found act | goes found act =>
      have turn := Instruction.turn_exec (reads_iff_of_some found) m.state
      rwa [act] at turn

end Machine

end TapeLang
