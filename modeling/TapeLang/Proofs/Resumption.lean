import TapeLang.Proofs.ChannelUse
import TapeLang.Proofs.Interruptions
import TapeLang.Proofs.Safety

/-! # Going on after a failure

A failure of the input or output that transfers nothing ends the run at the
instruction that met it, and this instruction has then done nothing yet. So a run
that is taken up again after each of finitely many such failures comes to the same
end as the run without them.
-/

namespace TapeLang

/-! ## Failures end the run -/

/-- A call that transferred nothing and failed. -/
def Event.IsTransient : Event → Prop
  | .read _ data ending => data = [] ∧ ∃ message, ending = .failed message
  | .write _ taken ok => taken = 0 ∧ ok = false
  | .flush ok => ok = false
  | .close _ => False

theorem Reader.failed_of_transient {event : Event} (transient : event.IsTransient) (id : Nat)
    (chunks : List Chunk) (member : event ∈ (pullFrom id chunks).2.2) :
    ∃ message, (pullFrom id chunks).1 = .failed message := by
  fun_induction pullFrom id chunks with
  | case2 rest outcome left events pulled ih =>
      rw [pulled] at ih
      rcases List.mem_cons.mp member with first | member
      · subst first
        simp [Event.IsTransient] at transient
      · exact ih member
  | case4 message => exact ⟨message, rfl⟩
  | case1 | case3 | case5 | case6 =>
      cases List.mem_singleton.mp member
      simp [Event.IsTransient] at transient

namespace Input

theorem not_transient_of_mem_closing {event : Event} {r : Reader} (member : event ∈ closing r) :
    ¬ event.IsTransient := by
  unfold closing at member
  split at member
  · cases List.mem_singleton.mp member
    exact id
  · cases member

theorem pullStack_failed_of_transient {event : Event} (transient : event.IsTransient)
    (rs : List Reader) (member : event ∈ (pullStack rs).2.2) :
    ∃ message, (pullStack rs).1 = .failed message := by
  induction rs with
  | nil => cases member
  | cons r below ih =>
      have failed := Reader.failed_of_transient transient r.id r.chunks
      rcases pulled : Reader.pullFrom r.id r.chunks with ⟨outcome, left, events⟩
      rw [pulled] at failed
      simp only [pullStack, Reader.pullByte, pulled] at member ⊢
      cases outcome with
      | failed message => exact ⟨message, rfl⟩
      | byte b => exact failed member
      | ended =>
          simp only [List.mem_append] at member
          rcases member with (member | member) | member
          · obtain ⟨_, absurd⟩ := failed member
            cases absurd
          · exact absurd transient (not_transient_of_mem_closing member)
          · exact ih member

theorem failed_of_transient {event : Event} (transient : event.IsTransient) (input : Input)
    (member : event ∈ input.pullByte.2.2) : ∃ message, input.pullByte.1 = .failed message := by
  cases input with
  | absent => cases member
  | single r => exact Reader.failed_of_transient transient r.id r.chunks member
  | stack rs => exact pullStack_failed_of_transient transient rs member

end Input

namespace Channels

variable {c c' c'' : Channels} {P Q : Prop}

/-- The log goes on, and transient failures are in the new part of it only under a condition. -/
def Admits (c c' : Channels) (condition : Prop) : Prop :=
  ∃ events, c'.log.toList = c.log.toList ++ events ∧
    ((∃ event ∈ events, event.IsTransient) → condition)

theorem Admits.refl (c : Channels) (P : Prop) : c.Admits c P :=
  ⟨[], by simp, by simp⟩

theorem Admits.imp (admits : c.Admits c' P) (implies : P → Q) : c.Admits c' Q := by
  obtain ⟨events, grown, blames⟩ := admits
  exact ⟨events, grown, fun transient => implies (blames transient)⟩

theorem Admits.trans (first : c.Admits c' P) (fine : ¬ P) (second : c'.Admits c'' Q) :
    c.Admits c'' Q := by
  obtain ⟨events, grown, blames⟩ := first
  obtain ⟨later, grown', blames'⟩ := second
  refine ⟨events ++ later, by rw [grown', grown, List.append_assoc], ?_⟩
  intro ⟨event, member, transient⟩
  rcases List.mem_append.mp member with member | member
  · exact absurd (blames ⟨event, member, transient⟩) fine
  · exact blames' ⟨event, member, transient⟩

theorem admits_flush (c : Channels) : c.Admits c.flush.1 (c.flush.2 ≠ none) := by
  obtain ⟨input, output, log⟩ := c
  cases output with
  | none => exact .refl _ _
  | some w =>
      cases flushable : w.onFlush with
      | none =>
          rw [flush_of_none flushable]
          exact .refl _ _
      | some answer =>
          rw [flush_of_some flushable]
          refine ⟨[.flush (answer w.flushes).isNone], by simp, ?_⟩
          rintro ⟨event, member, transient⟩
          cases List.mem_singleton.mp member
          simpa [Event.IsTransient, Option.isSome_iff_ne_none] using transient

theorem admits_write (b : UInt8) (c : Channels) :
    c.Admits (c.write b).1 ((c.write b).2 ≠ none) := by
  obtain ⟨input, output, log⟩ := c
  cases output with
  | none => exact .refl _ _
  | some w =>
      refine ⟨[.write [b] (w.write [b]).1.taken (w.write [b]).1.failure.isNone],
        by simp [write], ?_⟩
      rintro ⟨event, member, transient⟩
      cases List.mem_singleton.mp member
      have failed : (w.write [b]).1.failure ≠ none := by
        simpa [Option.isSome_iff_ne_none] using transient.2
      simpa [write] using failed

theorem admits_pullByte (c : Channels) :
    c.Admits c.pullByte.1 (∃ message, c.pullByte.2 = .failed message) := by
  obtain ⟨input, output, log⟩ := c
  refine ⟨input.pullByte.2.2, by simp [pullByte], ?_⟩
  rintro ⟨event, member, transient⟩
  exact input.failed_of_transient transient member

end Channels

namespace State

theorem read_of_absent {t : Tape} {c : Channels} (absent : c.input = .absent) :
    read ⟨t, c⟩ = (⟨t, c⟩, .ok .next) := by
  simp only [read, if_pos absent]

theorem read_of_failed {t : Tape} {c : Channels} (present : c.input ≠ .absent) {failure : Failure}
    (failed : c.flush.2 = some failure) :
    read ⟨t, c⟩ = (⟨t, c.flush.1⟩, .error (.io .write failure)) := by
  rcases flushed : c.flush with ⟨c', _⟩
  rw [flushed] at failed
  cases failed
  simp only [read, if_neg present, flushed]

theorem read_of_flushed {t : Tape} {c : Channels} (present : c.input ≠ .absent)
    (fine : c.flush.2 = none) :
    read ⟨t, c⟩ = store c.flush.1.pullByte.2 ⟨t, c.flush.1.pullByte.1⟩ := by
  rcases flushed : c.flush with ⟨c', _⟩
  rw [flushed] at fine
  cases fine
  simp only [read, if_neg present, flushed]

theorem write_of_absent {t : Tape} {c : Channels} (absent : c.output.isNone = true) :
    write ⟨t, c⟩ = (⟨t, c⟩, .ok .next) := by
  simp only [write, if_pos absent]

theorem write_of_fault {t : Tape} {c : Channels} (present : ¬ c.output.isNone = true) {f : Fault}
    (fault : t.rangeFault? = some f) : write ⟨t, c⟩ = (⟨t, c⟩, .error (.fault f)) := by
  simp only [write, if_neg present, fault]

theorem write_of_inRange {t : Tape} {c : Channels} (present : ¬ c.output.isNone = true)
    (inRange : t.rangeFault? = none) : write ⟨t, c⟩ = (⟨t, (c.write t.cell).1⟩,
      match (c.write t.cell).2 with
      | some failure => .error (.io .write failure)
      | none => .ok .next) := by
  simp only [write, if_neg present, inRange]
  rcases c.write t.cell with ⟨c', _ | failure⟩ <;> rfl

theorem store_apart (outcome : ByteRead) (t : Tape) : t.Apart (store outcome) := by
  cases outcome with
  | byte b => exact .touching Tape.ptr (.of_onTape t _ _)
  | ended => exact .of_same t _
  | failed message => exact .of_same t _

end State

/-- An instruction that meets a transient failure does nothing else. -/
def State.Admits (s : State) (x : State × Except Trap Control) : Prop :=
  s.channels.Admits x.1.channels
    ((∃ op failure, x.2 = .error (.io op failure)) ∧ x.1.tape = s.tape)

theorem State.admits_write (s : State) : s.Admits s.write := by
  obtain ⟨t, c⟩ := s
  by_cases absent : c.output.isNone = true
  · rw [write_of_absent absent]
    exact .refl _ _
  cases ranged : t.rangeFault? with
  | some f =>
      rw [write_of_fault absent ranged]
      exact .refl _ _
  | none =>
      rw [write_of_inRange absent ranged]
      refine (c.admits_write t.cell).imp ?_
      intro failed
      obtain ⟨failure, said⟩ := Option.ne_none_iff_exists'.mp failed
      simp [said]

theorem State.admits_read (s : State) : s.Admits s.read := by
  obtain ⟨t, c⟩ := s
  by_cases absent : c.input = .absent
  · rw [read_of_absent absent]
    exact .refl _ _
  cases flushed : c.flush.2 with
  | some failure =>
      rw [read_of_failed absent flushed]
      exact c.admits_flush.imp fun _ => ⟨⟨_, _, rfl⟩, rfl⟩
  | none =>
      rw [read_of_flushed absent flushed]
      obtain ⟨t', x, stored⟩ := store_apart c.flush.1.pullByte.2 t
      have pulled := c.admits_flush.trans (by simp [flushed]) c.flush.1.admits_pullByte
      rw [stored]
      refine pulled.imp ?_
      intro ⟨message, failed⟩
      rw [failed] at stored
      cases stored c
      exact ⟨⟨_, _, rfl⟩, rfl⟩

theorem Instruction.admits_exec (i : Instruction) (s : State) : s.Admits (i.exec s) := by
  by_cases write : i.op = .write
  · simp only [exec, write]
    exact s.admits_write
  by_cases read : i.op = .read
  · simp only [exec, read]
    exact s.admits_read
  obtain ⟨t', x, same⟩ := exec_apart write read s.tape
  rw [same s.channels]
  exact .refl _ _

namespace Machine

theorem finish_of_flushed {program : Program} {pc : Address} {n : Nat} {t : Tape} {c : Channels}
    (fine : c.flush.2 = none) : finish ⟨program, pc, n, ⟨t, c⟩⟩ =
      (⟨program, pc, n, ⟨t, c.flush.1⟩⟩, some (.ok ())) := by
  rcases flushed : c.flush with ⟨c', _⟩
  rw [flushed] at fine
  cases fine
  simp only [finish, flushed]

theorem finish_of_failed {program : Program} {pc : Address} {n : Nat} {t : Tape} {c : Channels}
    {failure : Failure} (failed : c.flush.2 = some failure) : finish ⟨program, pc, n, ⟨t, c⟩⟩ =
      (⟨program, pc, n, ⟨t, c.flush.1⟩⟩, some (.error (.io ⟨.write, pc, failure⟩))) := by
  rcases flushed : c.flush with ⟨c', _⟩
  rw [flushed] at failed
  cases failed
  simp only [finish, flushed]

/-- A run that ends with a failure of the channels ends where it was before the instruction. -/
structure Interrupted (m : Machine) (x : Machine × Option Outcome) : Prop where
  error : ∃ e, x.2 = some (.error (.io e)) ∧ e.pc = x.1.pc
  pc : x.1.pc = m.pc
  tape : x.1.tape = m.tape

/-- A step that meets a transient failure ends the run. -/
def Admits (m : Machine) (x : Machine × Option Outcome) : Prop :=
  m.state.channels.Admits x.1.state.channels (m.Interrupted x)

theorem admits_finish (m : Machine) : m.Admits m.finish := by
  obtain ⟨program, pc, n, ⟨t, c⟩⟩ := m
  cases flushed : c.flush.2 with
  | none =>
      rw [finish_of_flushed flushed]
      exact c.admits_flush.imp fun failed => absurd flushed failed
  | some failure =>
      rw [finish_of_failed flushed]
      exact c.admits_flush.imp fun _ => ⟨⟨_, rfl, rfl⟩, rfl, rfl⟩

theorem admits_step (m : Machine) : m.Admits m.step := by
  cases found : m.current? with
  | none =>
      unfold current? at found
      split at found
      · next outside =>
          simp only [step, if_pos outside]
          exact .refl _ _
      · next inside =>
          simp only [step, if_neg inside, found]
          exact m.admits_finish
  | some i =>
      rw [step_of_current found]
      obtain ⟨program, pc, n, s⟩ := m
      have admits := i.admits_exec s
      rcases act : i.exec s with ⟨s', trap | control⟩
      · rw [act] at admits
        simp only [perform, act]
        refine admits.imp ?_
        rintro ⟨⟨op, failure, failed⟩, tape⟩
        cases failed
        exact ⟨⟨_, rfl, rfl⟩, rfl, tape⟩
      · rw [act] at admits
        have fine : s.channels.Admits s'.channels False := by
          refine admits.imp ?_
          rintro ⟨⟨_, _, failed⟩, _⟩
          cases failed
        cases control with
        | next | again | jump =>
            simp only [perform, act]
            exact fine.imp False.elim
        | stop =>
            cases Instruction.exec_stop act
            simp only [perform, act]
            refine (admits_finish ⟨program, pc, n + 1, s⟩).imp ?_
            intro interrupted
            exact ⟨interrupted.error, interrupted.pc, interrupted.tape⟩

end Machine

/-! ## Runs with failures put in -/

namespace Channels.Hindered

variable {k : Nat} {c c' : Channels}

theorem absent_iff (hindered : Hindered k c c') :
    (c'.input = .absent ↔ c.input = .absent) ∧
      (c'.output.isNone = true ↔ c.output.isNone = true) := by
  obtain ⟨_, _, _, _, input, output⟩ := hindered.parts
  refine ⟨input.absent_iff, ?_⟩
  obtain ⟨input₁, output₁, log₁⟩ := c
  obtain ⟨input₂, output₂, log₂⟩ := c'
  cases output <;> simp

/-- What an instruction does on channels with `k` failures put in, where it does `x` without them:
    it meets a failure and does nothing else, or does the same. -/
inductive Trails (k : Nat) (t : Tape) (c : Channels) (x : State × Except Trap Control) :
    State × Except Trap Control → Prop where
  | fails {op : Opcode} {failure : Failure} {c' : Channels} {j : Nat} (fewer : j < k)
      (hindered : Hindered j c c') : Trails k t c x (⟨t, c'⟩, .error (.io op failure))
  | goes {c' : Channels} {j : Nat} (remain : j ≤ k) (hindered : Hindered j x.1.channels c') :
      Trails k t c x (⟨x.1.tape, c'⟩, x.2)

theorem trails_write (hindered : Hindered k c c') (t : Tape)
    (fine : ∀ op failure, (State.write ⟨t, c⟩).2 ≠ .error (.io op failure)) :
    Trails k t c (State.write ⟨t, c⟩) (State.write ⟨t, c'⟩) := by
  have outputs := hindered.absent_iff.2
  by_cases absent : c.output.isNone = true
  · rw [State.write_of_absent absent, State.write_of_absent (outputs.mpr absent)]
    exact .goes (Nat.le_refl k) hindered
  have absent' := fun h => absent (outputs.mp h)
  cases ranged : t.rangeFault? with
  | some f =>
      rw [State.write_of_fault absent ranged, State.write_of_fault absent' ranged]
      exact .goes (Nat.le_refl k) hindered
  | none =>
      rw [State.write_of_inRange absent ranged] at fine ⊢
      rw [State.write_of_inRange absent' ranged]
      cases wrote : (c.write t.cell).2 with
      | some failure =>
          simp only [wrote] at fine
          exact absurd rfl (fine .write failure)
      | none =>
          rcases hindered.write t.cell wrote with ⟨failed, j, fewer, left⟩ | ⟨same, left⟩
          · obtain ⟨failure, said⟩ := Option.ne_none_iff_exists'.mp failed
            simp only [said]
            exact .fails fewer left
          · simp only [same]
            exact .goes (Nat.le_refl k) left

theorem trails_read (hindered : Hindered k c c') (t : Tape)
    (fine : ∀ op failure, (State.read ⟨t, c⟩).2 ≠ .error (.io op failure)) :
    Trails k t c (State.read ⟨t, c⟩) (State.read ⟨t, c'⟩) := by
  have inputs := hindered.absent_iff.1
  by_cases absent : c.input = .absent
  · rw [State.read_of_absent absent, State.read_of_absent (inputs.mpr absent)]
    exact .goes (Nat.le_refl k) hindered
  have absent' := fun h => absent (inputs.mp h)
  cases flushed : c.flush.2 with
  | some failure =>
      rw [State.read_of_failed absent flushed] at fine
      exact absurd rfl (fine .write failure)
  | none =>
      rcases hindered.flush with ⟨failed, j, fewer, left⟩ | ⟨same, left⟩
      · obtain ⟨failure, said⟩ := Option.ne_none_iff_exists'.mp failed
        rw [State.read_of_failed absent' said]
        exact .fails fewer left
      rw [State.read_of_flushed absent flushed, State.read_of_flushed absent' same]
      -- a read that fails is repeated with the flush before it
      rcases (flushed_iff.mpr left).pullByte with
        ⟨message, failed, j, fewer, left⟩ | ⟨same, j, remain, left⟩
      · rw [failed]
        exact .fails fewer (flushed_iff.mp left)
      · obtain ⟨t', x, stored⟩ := State.store_apart c.flush.1.pullByte.2 t
        rw [same, stored, stored]
        exact .goes remain left

theorem trails_exec (hindered : Hindered k c c') (i : Instruction) (t : Tape)
    (fine : ∀ op failure, (i.exec ⟨t, c⟩).2 ≠ .error (.io op failure)) :
    Trails k t c (i.exec ⟨t, c⟩) (i.exec ⟨t, c'⟩) := by
  by_cases write : i.op = .write
  · simp only [Instruction.exec, write] at fine ⊢
    exact hindered.trails_write t fine
  by_cases read : i.op = .read
  · simp only [Instruction.exec, read] at fine ⊢
    exact hindered.trails_read t fine
  obtain ⟨t', x, same⟩ := Instruction.exec_apart write read t
  rw [same, same]
  exact .goes (Nat.le_refl k) hindered

end Channels.Hindered

namespace Machine

/-- The same machine on channels with `k` failures put in. -/
structure Hindered (k : Nat) (m m' : Machine) : Prop where
  program : m'.program = m.program
  pc : m'.pc = m.pc
  tape : m'.tape = m.tape
  channels : Channels.Hindered k m.state.channels m'.state.channels

/-- What a step does on channels with `k` failures put in, where it does `x` without them. -/
inductive Trails (k : Nat) (m : Machine) (x : Machine × Option Outcome) :
    Machine × Option Outcome → Prop where
  | fails {e : IoError} {m' : Machine} {j : Nat} (here : e.pc = m'.pc) (fewer : j < k)
      (hindered : Hindered j m m') : Trails k m x (m', some (.error (.io e)))
  | goes {m' : Machine} {j : Nat} (remain : j ≤ k) (hindered : Hindered j x.1 m') :
      Trails k m x (m', x.2)

variable {k : Nat} {m m' : Machine}

/-- The number of executed instructions does not matter. -/
theorem Trails.recount {j n : Nat} {x y : Machine × Option Outcome}
    (trails : Trails j { m with count := n } x y) (le : j ≤ k) : Trails k m x y := by
  cases trails with
  | fails here fewer left =>
      exact .fails here (Nat.lt_of_lt_of_le fewer le)
        ⟨left.program, left.pc, left.tape, left.channels⟩
  | goes remain left => exact .goes (Nat.le_trans remain le) left

theorem Hindered.finish (hindered : Hindered k m m')
    (fine : ∀ e, m.finish.2 ≠ some (.error (.io e))) : Trails k m m.finish m'.finish := by
  obtain ⟨program, pc, n, ⟨t, c⟩⟩ := m
  obtain ⟨program', pc', n', ⟨t', c'⟩⟩ := m'
  obtain ⟨sameProgram, samePc, sameTape, channels⟩ := hindered
  cases sameProgram
  cases samePc
  cases sameTape
  cases flushed : c.flush.2 with
  | some failure =>
      rw [finish_of_failed flushed] at fine
      exact absurd rfl (fine _)
  | none =>
      rw [finish_of_flushed flushed]
      rcases channels.flush with ⟨failed, j, fewer, left⟩ | ⟨same, left⟩
      · obtain ⟨failure, said⟩ := Option.ne_none_iff_exists'.mp failed
        rw [finish_of_failed said]
        exact .fails rfl fewer ⟨rfl, rfl, rfl, left⟩
      · rw [finish_of_flushed same]
        exact .goes (Nat.le_refl k) ⟨rfl, rfl, rfl, Channels.Hindered.flushed_iff.mpr left⟩

theorem Hindered.perform {program : Program} {pc : Address} {n n' : Nat} {t : Tape}
    {c c' : Channels} (channels : Channels.Hindered k c c') (i : Instruction)
    (fine : ∀ e, (perform i ⟨program, pc, n, ⟨t, c⟩⟩).2 ≠ some (.error (.io e))) :
    Trails k ⟨program, pc, n, ⟨t, c⟩⟩ (perform i ⟨program, pc, n, ⟨t, c⟩⟩)
      (perform i ⟨program, pc, n', ⟨t, c'⟩⟩) := by
  have trails := channels.trails_exec i t
  rcases act : i.exec ⟨t, c⟩ with ⟨⟨t₁, c₁⟩, x⟩
  rcases act' : i.exec ⟨t, c'⟩ with ⟨s', x'⟩
  rw [act, act'] at trails
  simp only [Machine.perform, act] at fine
  have noFailure : ∀ op failure, x ≠ .error (.io op failure) := by
    intro op failure failed
    rw [failed] at fine
    exact fine _ rfl
  simp only [Machine.perform, act, act']
  cases trails noFailure with
  | fails fewer left => exact .fails rfl fewer ⟨rfl, rfl, rfl, left⟩
  | @goes c₁' j remain left =>
      cases x with
      | error trap => exact .goes remain ⟨rfl, rfl, rfl, left⟩
      | ok control =>
          cases control with
          | next | again | jump => exact .goes remain ⟨rfl, rfl, rfl, left⟩
          | stop =>
              -- halting leaves the state as it is, so a flush that fails is tried again from here
              cases Instruction.exec_stop act
              have same : Hindered j ⟨program, pc, n + 1, ⟨t, c⟩⟩ ⟨program, pc, n' + 1, ⟨t, c₁'⟩⟩ :=
                ⟨rfl, rfl, rfl, left⟩
              exact (same.finish fine).recount remain

theorem Hindered.step (hindered : Hindered k m m')
    (fine : ∀ e, m.step.2 ≠ some (.error (.io e))) : Trails k m m.step m'.step := by
  obtain ⟨program, pc, n, ⟨t, c⟩⟩ := m
  obtain ⟨program', pc', n', ⟨t', c'⟩⟩ := m'
  obtain ⟨sameProgram, samePc, sameTape, channels⟩ := hindered
  cases sameProgram
  cases samePc
  cases sameTape
  unfold Machine.step at fine ⊢
  by_cases outside : pc.toInt < 0
  · simp only [if_pos outside]
    exact .goes (Nat.le_refl k) ⟨rfl, rfl, rfl, channels⟩
  simp only [if_neg outside] at fine ⊢
  cases found : program[pc.toInt.toNat]? with
  | none =>
      simp only [found] at fine
      exact Hindered.finish ⟨rfl, rfl, rfl, channels⟩ fine
  | some i =>
      simp only [found] at fine
      exact Hindered.perform channels i fine

/-- Running the machine, and again whenever the input or output fails, comes to this end. The
    error then names the program counter of the machine. -/
inductive Reruns (outcome : Outcome) : Machine → Machine → Prop where
  | done {m last : Machine} {limit : Nat} (run : m.run limit = some (last, outcome)) :
      Reruns outcome m last
  | again {m m' last : Machine} {limit : Nat} {e : IoError}
      (run : m.run limit = some (m', .error (.io e))) (here : e.pc = m'.pc)
      (later : Reruns outcome m' last) : Reruns outcome m last

/-- The same from the middle of a run. -/
inductive Resumes (outcome : Outcome) (m last : Machine) : Prop where
  | done {limit : Nat} (run : m.resume limit = some (last, outcome)) : Resumes outcome m last
  | again {m' : Machine} {limit : Nat} {e : IoError}
      (run : m.resume limit = some (m', .error (.io e))) (here : e.pc = m'.pc)
      (later : Reruns outcome m' last) : Resumes outcome m last

variable {outcome : Outcome} {last : Machine}

theorem Resumes.reruns (resumes : Resumes outcome { m with count := 0 } last) :
    Reruns outcome m last := by
  cases resumes with
  | done run => exact .done run
  | again run here later => exact .again run here later

theorem Resumes.of_step (moved : m.step = (m', none)) (resumes : Resumes outcome m' last) :
    Resumes outcome m last := by
  have longer : ∀ {limit ended},
      m'.resume limit = some ended → m.resume (limit + 1) = some ended := by
    intro limit ended run
    rw [resume, moved]
    exact run
  cases resumes with
  | done run => exact .done (longer run)
  | again run here later => exact .again (longer run) here later

/-- A machine on channels with failures put in, started again after each of them, comes to the end
    of the run without them. -/
theorem Hindered.resumes {steps : Nat} (hindered : Hindered k m m')
    (run : follow Machine.step steps m = (last, some outcome))
    (fine : ∀ e, outcome ≠ .error (.io e)) :
    ∃ last' j, Resumes outcome m' last' ∧ Hindered j last last' := by
  -- a failure leaves one failure less, and otherwise the run has one step less to go
  induction steps generalizing k m m' with
  | zero => cases run
  | succ steps later =>
      induction k using Nat.strongRecOn generalizing m' with
      | _ k fewerLeft =>
      rcases moved : m.step with ⟨m₁, ended⟩
      have noFailure : ∀ e, m.step.2 ≠ some (.error (.io e)) := by
        intro e failed
        rw [moved] at failed
        cases failed
        rw [follow_ended moved] at run
        cases run
        exact fine e rfl
      have trails := hindered.step noFailure
      rw [moved] at trails
      rcases moved' : m'.step with ⟨m₁', ended'⟩
      rw [moved'] at trails
      cases trails with
      | @fails e _ j here fewer left =>
          have again : Hindered j m { m₁' with count := 0 } :=
            ⟨left.program, left.pc, left.tape, left.channels⟩
          obtain ⟨last', j', resumes, same⟩ := fewerLeft j fewer again
          have ends : m'.resume 1 = some (m₁', .error (.io e)) := by rw [resume, moved']
          exact ⟨last', j', .again ends here resumes.reruns, same⟩
      | @goes _ j remain left =>
          cases ended with
          | none =>
              rw [follow_succ moved] at run
              obtain ⟨last', j', resumes, same⟩ := later left run
              exact ⟨last', j', resumes.of_step moved', same⟩
          | some ended =>
              rw [follow_ended moved] at run
              cases run
              have ends : m'.resume 1 = some (m₁', outcome) := by rw [resume, moved']
              exact ⟨m₁', j, .done ends, left⟩

theorem Hindered.received (hindered : Hindered k m m') :
    m'.state.channels.output.map (·.received) = m.state.channels.output.map (·.received) := by
  obtain ⟨_, _, _, _, _, output⟩ := hindered.channels.parts
  generalize m.state.channels.output = written at output ⊢
  generalize m'.state.channels.output = written' at output ⊢
  cases output with
  | none => rfl
  | some writer => exact congrArg some writer.received

/-- A step that meets a transient failure ends the run it belongs to. -/
theorem run_of_transient {start : Machine} {n : Nat} {events : List Event}
    (way : follow Machine.step n { start with count := 0 } = (m, none))
    (grown : m.step.1.state.log = m.state.log ++ events)
    (transient : ∃ event ∈ events, event.IsTransient) :
    m.Interrupted m.step ∧ ∀ e, m.step.2 = some (.error (.io e)) →
      start.run (n + 1) = some (m.step.1, .error (.io e)) := by
  obtain ⟨events', same, blames⟩ := m.admits_step
  constructor
  · apply blames
    rwa [List.append_cancel_left (same.symm.trans grown)]
  · intro e failed
    have ends : m.step = (m.step.1, some (.error (.io e))) := Prod.ext rfl failed
    rw [run, resume_eq_some_iff, follow_add way]
    exact follow_ended ends 0

end Machine

/-- Whatever fails without having transferred anything ends the run with an error at the program
    counter, and the tape is as it was before the instruction. If the run without failures ends,
    then running the machine again after each failure ends with the same tape, the same program
    counter and the same output. -/
theorem Block.reruns_to_same_end {how : Lowering} {b : Block} {l : Lowered} {t : Tape}
    {c c' : Channels} {k : Nat} (ok : b.lower how = .ok l) (on : t.OnTape)
    (hindered : c.Hindered k c') :
    (∀ (start m : Machine) (n : Nat) (events : List Event),
      follow Machine.step n { start with count := 0 } = (m, none) →
      m.step.1.state.log = m.state.log ++ events → (∃ event ∈ events, event.IsTransient) →
      ∃ e, start.run (n + 1) = some (m.step.1, .error (.io e)) ∧ e.pc = m.step.1.pc ∧
        m.step.1.pc = m.pc ∧ m.step.1.tape = m.tape) ∧
    ∀ limit last outcome, Machine.run limit ⟨l.code, 0, 0, ⟨t, c⟩⟩ = some (last, outcome) →
      (∀ e, outcome ≠ .error (.io e)) →
      ∃ last', Machine.Reruns (.ok ()) ⟨l.code, 0, 0, ⟨t, c'⟩⟩ last' ∧ last'.tape = last.tape ∧
        last'.pc = last.pc ∧ last'.state.channels.output.map (·.received) =
          last.state.channels.output.map (·.received) := by
  constructor
  · intro start m n events way grown transient
    obtain ⟨⟨⟨e, failed, here⟩, pc, tape⟩, ends⟩ := Machine.run_of_transient way grown transient
    exact ⟨e, ends e failed, here, pc, tape⟩
  · intro limit last outcome run fine
    rw [Machine.run, Machine.resume_eq_some_iff] at run
    obtain ⟨code, linked, _⟩ := lower_spells ok
    have wellFormed := Program.WellLinked.wellFormed ⟨code, linked⟩ (lower_proper ok)
    have safe : Machine.Safe l.code t.size ⟨l.code, 0, 0, ⟨t, c⟩⟩ :=
      Machine.safe_of_onTape wellFormed rfl (Int.le_refl 0) (Int.natCast_nonneg _) on
    have ends := Machine.follow_safe wellFormed safe limit
    rw [run] at ends
    have well : outcome = .ok () := by
      rcases ends.2 outcome rfl with well | ⟨e, failed, _⟩
      · exact well
      · exact absurd failed (fine e)
    subst well
    have start : Machine.Hindered k ⟨l.code, 0, 0, ⟨t, c⟩⟩ ⟨l.code, 0, 0, ⟨t, c'⟩⟩ :=
      ⟨rfl, rfl, rfl, hindered⟩
    obtain ⟨last', j, resumes, same⟩ := start.resumes run fine
    exact ⟨last', Machine.Resumes.reruns resumes, same.tape, same.pc, same.received⟩

/-- `,.` -/
def Block.copyByte : Block :=
  .command .input (.command .output (.command .halt .empty))

/-- An output that refuses the first write and fails to flush the second time. -/
def Writer.fickle : Writer where
  onWrite
    | 0 => .refuse 0 "full"
    | _ + 1 => .accept
  onFlush := some fun
    | 1 => some "late"
    | _ => none

/-- A read, a write and a flush fail, each once. -/
theorem Block.reruns_to_same_end_copyByte : ∃ l last', Block.copyByte.lower {} = .ok l ∧
    Machine.Reruns (.ok ()) ⟨l.code, 0, 0, ⟨.blank 1 (by decide) (by decide),
      { input := .single ⟨0, [⟨[], .failed "busy"⟩, ⟨[65], .more⟩], false⟩,
        output := some .fickle }⟩⟩ last' ∧
    last'.tape.cell = 65 ∧ last'.state.channels.output.map (·.received) = some #[65] := by
  have code : (Block.copyByte.lower {}).map (·.code) = .ok #[.read, .write, .halt] := by
    decide +kernel
  obtain ⟨tallies, ok⟩ := Lowered.exists_of_code code
  have writes : Interspersed Reply.IsRefusal 1 (fun _ => .accept)
      (fun n => Writer.fickle.onWrite (0 + n)) := .put ⟨"full", rfl⟩ (.same _)
  have flushes : ∀ answer, Writer.fickle.onFlush = some answer →
      Interspersed (·.isSome = true) 1 (fun _ => none) (fun n => answer (0 + n)) := by
    intro _ same
    cases same
    exact .keep rfl (.put rfl (.same _))
  have hindered : Channels.Hindered 3
      { input := .single ⟨0, [⟨[65], .more⟩], false⟩, output := some {} }
      { input := .single ⟨0, [⟨[], .failed "busy"⟩, ⟨[65], .more⟩], false⟩,
        output := some .fickle } :=
    ⟨1, 1, 1, rfl, .single (.failure _ (.keep _ .nil)), .some ⟨rfl, writes, flushes⟩⟩
  obtain ⟨_, reruns⟩ :=
    reruns_to_same_end (t := .blank 1 (by decide) (by decide)) ok (by decide) hindered
  obtain ⟨last', ends, tape, _, received⟩ := reruns 3 _ _ rfl (by simp)
  exact ⟨_, last', ok, ends, by rw [tape]; rfl, by rw [received]; rfl⟩

end TapeLang
