import TapeLang.Proofs.MachineRuns

/-! # Where channels are used

Reading and writing apart, an instruction does the same to a tape whatever is
connected, and leaves the channels alone. Only reading touches the input.
-/

namespace TapeLang

/-- What happens to the tape does not depend on the channels, and they stay as they are. -/
def Tape.Apart (t : Tape) (act : State → State × Except Trap Control) : Prop :=
  ∃ t' x, ∀ channels, act ⟨t, channels⟩ = (⟨t', channels⟩, x)

namespace Tape.Apart

variable {t : Tape} {act other : State → State × Except Trap Control}

theorem of_onTape (t : Tape) (f : Tape → Tape) (x : Except Trap Control) :
    t.Apart fun s => (s.onTape f, x) :=
  ⟨f t, x, fun _ => rfl⟩

theorem of_same (t : Tape) (x : Except Trap Control) : t.Apart fun s => (s, x) :=
  ⟨t, x, fun _ => rfl⟩

theorem touching (position : Tape → Int64) (apart : t.Apart act) :
    t.Apart fun s => s.touching (position s.tape) act := by
  obtain ⟨t', x, same⟩ := apart
  cases faults : t.fault? (position t) with
  | some f => exact ⟨t, .error (.fault f), fun channels => by simp [State.touching, faults]⟩
  | none => exact ⟨t', x, fun channels => by simp [State.touching, faults, same]⟩

theorem ite (c : Tape → Prop) [DecidablePred c] (apart : t.Apart act) (apart' : t.Apart other) :
    t.Apart fun s => if c s.tape then act s else other s := by
  by_cases h : c t
  · obtain ⟨t', x, same⟩ := apart
    exact ⟨t', x, fun channels => by simp only [if_pos h, same]⟩
  · obtain ⟨t', x, same⟩ := apart'
    exact ⟨t', x, fun channels => by simp only [if_neg h, same]⟩

theorem whileCell (t : Tape) (round : Tape → Tape) : t.Apart (State.whileCell round) :=
  touching Tape.ptr (ite (·.cell = 0) (of_same t _) (of_onTape t round _))

theorem pourTo (t : Tape) (target : Int64) : t.Apart (State.pourTo target) :=
  touching (fun _ => target) (touching Tape.ptr (of_onTape t (fun t => t.pour t.ptr target) _))

theorem clearArea (t : Tape) (n : Nat) (clear : Tape → Tape) : t.Apart (State.clearArea n clear) :=
  ite (fun t => 0 < n ∧ n < t.size) (touching Tape.ptr (of_onTape t clear _)) (of_onTape t clear _)

end Tape.Apart

open Tape.Apart in
/-- Instructions that neither read nor write. -/
theorem Instruction.exec_apart {i : Instruction} (notWrite : i.op ≠ .write) (notRead : i.op ≠ .read)
    (t : Tape) : t.Apart i.exec := by
  obtain ⟨op, n, m⟩ := i
  cases op with
  | write => exact absurd rfl notWrite
  | read => exact absurd rfl notRead
  | halt | unassigned => exact of_same t _
  | right | left => exact of_onTape t _ _
  | add | zero => exact touching Tape.ptr (of_onTape t _ _)
  | jez => exact touching Tape.ptr (ite (·.cell = 0) (of_same t _) (of_same t _))
  | jnz => exact touching Tape.ptr (ite (·.cell = 0) (of_same t _) (of_same t _))
  | searchl | searchr | mandel => exact whileCell t _
  | amovel =>
      obtain ⟨t', x, same⟩ := pourTo t (t.leftOf t.ptr (Int64.ofNat n.toNat))
      exact ⟨t', x, same⟩
  | amover =>
      obtain ⟨t', x, same⟩ := pourTo t (t.rightOf t.ptr (Int64.ofNat n.toNat))
      exact ⟨t', x, same⟩
  | zerol | zeror => exact clearArea t n.toNat _

namespace Channels

theorem input_flush (c : Channels) : c.flush.1.input = c.input := by
  obtain ⟨input, output, log⟩ := c
  cases output with
  | none => rfl
  | some w =>
      rw [flush]
      split <;> rfl

theorem input_write (b : UInt8) (c : Channels) : (c.write b).1.input = c.input := by
  obtain ⟨input, output, log⟩ := c
  cases output with
  | none => rfl
  | some w => rfl

end Channels

theorem State.input_write (s : State) : s.write.1.channels.input = s.channels.input := by
  obtain ⟨tape, channels⟩ := s
  unfold write
  split
  · rfl
  · split
    · rfl
    · have kept := channels.input_write tape.cell
      dsimp only
      split
      · next wrote => simpa [wrote] using kept
      · next wrote => simpa [wrote] using kept

theorem Instruction.input_exec {i : Instruction} (notRead : i.op ≠ .read) (s : State) :
    (i.exec s).1.channels.input = s.channels.input := by
  by_cases write : i.op = .write
  · simp only [exec, write]
    exact s.input_write
  · obtain ⟨t', x, same⟩ := exec_apart write notRead s.tape
    rw [same s.channels]

namespace Machine

variable {m : Machine} {i : Instruction}

theorem step_of_current (found : m.current? = some i) : m.step = m.perform i := by
  unfold current? at found
  split at found
  · cases found
  · next inside => simp only [step, if_neg inside, found]

/-- What the instruction and flushing the output keep, a step keeps. -/
theorem step_keeps {I : State → Prop} (exec : ∀ i, m.current? = some i → I (i.exec m.state).1)
    (flush : ∀ t c, I ⟨t, c⟩ → I ⟨t, c.flush.1⟩) (holds : I m.state) : I m.step.1.state := by
  have finish : ∀ m : Machine, I m.state → I m.finish.1.state := by
    intro ⟨program, pc, count, ⟨t, c⟩⟩ holds
    have kept := flush t c holds
    unfold Machine.finish
    dsimp only
    split
    · next flushed => simpa [flushed] using kept
    · next flushed => simpa [flushed] using kept
  cases found : m.current? with
  | none =>
      unfold current? at found
      split at found
      · next outside => simpa only [step, if_pos outside] using holds
      · next inside => simpa only [step, if_neg inside, found] using finish m holds
  | some i =>
      have kept := exec i found
      rw [step_of_current found]
      obtain ⟨program, pc, count, s⟩ := m
      rcases act : i.exec s with ⟨s', trap | control⟩
      · simpa [perform, act] using kept
      · cases control with
        | stop =>
            -- halting also flushes the output
            have kept : I s' := by simpa [act] using kept
            simpa [perform, act] using finish ⟨program, pc, count + 1, s'⟩ kept
        | next | again | jump => simpa [perform, act] using kept

theorem onTape_step (on : m.tape.OnTape) : m.step.1.tape.OnTape := by
  refine step_keeps (I := fun s => s.tape.OnTape) ?_ (fun _ _ on => on) on
  intro i _
  exact Instruction.onTape_exec on i

/-- The next instruction reads. -/
def Reads (m : Machine) : Prop :=
  ∃ i, m.current? = some i ∧ i.op = .read

theorem input_step (other : ¬ m.Reads) :
    m.step.1.state.channels.input = m.state.channels.input := by
  refine step_keeps (I := fun s => s.channels.input = m.state.channels.input) ?_ ?_ rfl
  · intro i found
    apply Instruction.input_exec
    intro read
    exact other ⟨i, found, read⟩
  · intro t c same
    exact c.input_flush.trans same

end Machine

end TapeLang
