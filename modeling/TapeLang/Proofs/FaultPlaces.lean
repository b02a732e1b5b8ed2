import TapeLang.Proofs.Steps

/-! # Where a failed run points

A run from a pointer on the tape fails for two reasons apart from its channels. An
opcode names no operation: then the program counter is at that instruction and nothing
has changed. Or a jump back led beyond the first instruction: then the program counter
is where the jump led, and there is no instruction.
-/

namespace TapeLang

namespace Machine

variable {m m' last : Machine} {e : RunError}

/-- A run from `start` failed at the instruction that the program counter points at, and that
    instruction left tape and pointer as they were. -/
structure FailsAtPc (start last : Machine) (e : RunError) : Prop where
  low : 0 ≤ last.pc.toInt
  high : last.pc.toInt < last.program.size
  failed : ∃ k m i s trap, follow step k start = (m, none) ∧ m.step = (last, some (.error e)) ∧
    m.current? = some i ∧ i.exec m.state = (s, .error trap) ∧
    last.program[last.pc.toInt.toNat]? = some i ∧ last.tape = m.tape

/-- The machine is about to jump back beyond the first instruction. -/
def LeapsOut (m : Machine) : Prop :=
  ∃ i, m.current? = some i ∧ i.op = .jnz ∧ m.tape.cell ≠ 0 ∧ m.pc.toInt + 1 < i.arg.toNat

theorem low_of_step (on : m.tape.OnTape) (low : 0 ≤ m.pc.toInt) (stays : ¬ m.LeapsOut)
    (moved : m.step = (m', none)) : 0 ≤ m'.pc.toInt := by
  have steps := m.steps_step
  rw [moved] at steps
  cases steps with
  | @goes i s control found act moving =>
      cases control with
      | next =>
          simp only [Control.target, Address.next]
          omega
      | again => exact low
      | stop => exact absurd rfl moving
      | jump offset =>
          simp only [Control.target, Address.next, Address.move]
          rcases Instruction.exec_jump on act with ⟨_, rfl⟩ | ⟨op, rfl⟩
          · omega
          · obtain ⟨_, n, n'⟩ := i
            cases op
            rw [Instruction.exec_jnz n n' on] at act
            split at act
            · cases act
            · next nonzero =>
                have near : ¬ m.pc.toInt + 1 < n.toNat :=
                  fun far => stays ⟨_, found, rfl, nonzero, far⟩
                dsimp only
                omega

/-- A leap goes on: only the next step finds no instruction. -/
theorem step_of_leapsOut (on : m.tape.OnTape) (leaps : m.LeapsOut) :
    ∃ m', m.step = (m', none) ∧ m'.pc.toInt < 0 ∧ m'.tape = m.tape := by
  obtain ⟨⟨_, n, n'⟩, found, op, nonzero, far⟩ := leaps
  cases op
  have act := Instruction.exec_jnz (s := m.state) n n' on
  rw [if_neg (show m.state.tape.cell ≠ 0 from nonzero)] at act
  have beyond : m.pc.toInt + -n.toNat + 1 < 0 := by
    dsimp only at far
    omega
  refine ⟨⟨m.program, ⟨m.pc.toInt + -n.toNat + 1⟩, m.count + 1, m.state⟩, ?_, beyond, rfl⟩
  rw [step_of_current found]
  simp only [perform, act]
  rfl

/-- In the program and on the tape, only an opcode that names no operation makes an instruction
    fail for a reason of its own. -/
theorem fails_of_step (on : m.tape.OnTape) (low : 0 ≤ m.pc.toInt)
    (failed : m.step = (last, some (.error e))) (other : ∀ io, e ≠ .io io) :
    ∃ i, m.current? = some i ∧ i.exec m.state = (m.state, .error (.invalid i.op)) ∧ last = m ∧
      e = .invalid m.pc i.op := by
  have steps := m.steps_step
  rw [failed] at steps
  cases steps with
  | before beyond => omega
  | unflushed => exact absurd rfl (other _)
  | @traps i s trap found act =>
      obtain ⟨op, n, n'⟩ := i
      by_cases named : op.isNamed = true
      · obtain ⟨_, failure, _, rfl⟩ := (Instruction.behaves _ named on).traps trap (by rw [act])
        exact absurd rfl (other _)
      · cases op with
        | unassigned code =>
            cases act
            exact ⟨_, found, rfl, rfl, rfl⟩
        | _ => exact absurd rfl named

theorem ended_unique {n n' : Nat} {x x' : Machine × Outcome} (ended : resume n m = some x)
    (ended' : resume n' m = some x') : x = x' := by
  have first := resume_mono (Nat.le_max_left n n') ended
  have second := resume_mono (Nat.le_max_right n n') ended'
  exact Option.some.inj (first.symm.trans second)

/-- After a leap the run ends before the first instruction. -/
theorem low_of_leapsOut {k n : Nat} {outcome : Outcome} (on : m.tape.OnTape)
    (reached : follow step k m = (m', none)) (leaps : m'.LeapsOut)
    (ended : resume n m = some (last, outcome)) :
    last.pc.toInt < 0 ∧ last.tape = m'.tape := by
  have on' := (follow_keeps (I := fun m : Machine => m.tape.OnTape) (fun _ => onTape_step) k on).1
  rw [reached] at on'
  obtain ⟨beyond, moved, low, same⟩ := step_of_leapsOut on' leaps
  have fails := follow_add reached 2
  rw [follow_succ moved, follow_ended (step_of_low low)] at fails
  cases ended_unique ended (resume_eq_some_iff.mpr fails)
  exact ⟨low, same⟩

theorem failsAtPc_of_stays {n : Nat} (on : m.tape.OnTape) (low : 0 ≤ m.pc.toInt)
    (stays : ∀ k m', follow step k m = (m', none) → ¬ m'.LeapsOut)
    (ended : resume n m = some (last, .error e)) (other : ∀ io, e ≠ .io io) :
    m.FailsAtPc last e ∧ ∃ op, e = .invalid last.pc op := by
  rw [resume_eq_some_iff] at ended
  obtain ⟨k, m', reached, failed⟩ := follow_last ended
  have inside : m'.tape.OnTape ∧ 0 ≤ m'.pc.toInt := by
    refine reached_keeps (I := fun m => m.tape.OnTape ∧ 0 ≤ m.pc.toInt) ?_ ⟨on, low⟩ reached
    intro j y z there moved ⟨on, low⟩
    have on' := onTape_step on
    rw [moved] at on'
    exact ⟨on', low_of_step on low (stays j y there) moved⟩
  obtain ⟨i, found, act, rfl, rfl⟩ := fails_of_step inside.1 inside.2 failed other
  have designated : last.program[last.pc.toInt.toNat]? = some i := by
    rwa [current?, if_neg (by omega)] at found
  obtain ⟨high, _⟩ := Array.getElem?_eq_some_iff.mp designated
  refine ⟨⟨inside.2, by omega, ?_⟩, i.op, rfl⟩
  exact ⟨k, _, i, _, _, reached, failed, found, act, designated, rfl⟩

/-- A run that fails, but not on its channels, points at the instruction that failed exactly if it
    never jumped back beyond the first instruction. If it did, it ends before the first instruction
    with the tape as the jump found it. -/
theorem failure_points_at_instruction_iff {limit : Nat} (on : m.tape.OnTape)
    (low : 0 ≤ m.pc.toInt) (ran : m.run limit = some (last, .error e))
    (other : ∀ io, e ≠ .io io) :
    (FailsAtPc { m with count := 0 } last e ↔
      ∀ k m', follow step k { m with count := 0 } = (m', none) → ¬ m'.LeapsOut) ∧
    (FailsAtPc { m with count := 0 } last e ∧ (∃ op, e = .invalid last.pc op) ∨
      last.pc.toInt < 0 ∧ ∃ k m', follow step k { m with count := 0 } = (m', none) ∧
        m'.LeapsOut ∧ last.tape = m'.tape) := by
  rw [Machine.run] at ran
  by_cases stays : ∀ k m', follow step k { m with count := 0 } = (m', none) → ¬ m'.LeapsOut
  · have fails := failsAtPc_of_stays (m := { m with count := 0 }) on low stays ran other
    exact ⟨⟨fun _ => stays, fun _ => fails.1⟩, .inl fails⟩
  · obtain ⟨k, m', reached, leaps⟩ : ∃ k m', follow step k { m with count := 0 } = (m', none) ∧
        m'.LeapsOut := by
      simpa only [not_forall, not_not, exists_prop] using stays
    obtain ⟨beyond, same⟩ := low_of_leapsOut (m := { m with count := 0 }) on reached leaps ran
    have elsewhere : ¬ FailsAtPc { m with count := 0 } last e := by
      intro fails
      have low := fails.low
      omega
    exact ⟨iff_of_false elsewhere stays, .inr ⟨beyond, k, m', reached, leaps, same⟩⟩

/-- On two cells: a jump that is not taken, though it would lead far beyond the first instruction,
    and an opcode that names no operation. -/
def stumbles : Except SizeProblem Machine :=
  new #[.add 2, .right 3, .jnz 9, .left 1, ⟨.ofByte 216, 7, 0⟩, .zero] [.tapeSize 2]

theorem failure_points_at_instruction_iff_stumbles : ∃ m last, stumbles = .ok m ∧
    m.tape.OnTape ∧ m.pc = 0 ∧ m.run 9 = some (last, .error (.invalid 4 (.ofByte 216))) ∧
    last.tape.cells = #[2, 0] ∧
    FailsAtPc { m with count := 0 } last (.invalid 4 (.ofByte 216)) := by
  obtain ⟨m, made⟩ : ∃ m, stumbles = .ok m := ⟨_, rfl⟩
  have home : m.pc = 0 := by
    cases made
    rfl
  have ended : (m.run 9).map (fun x => (x.1.pc, x.1.tape.cells, x.2)) =
      some (4, #[2, 0], .error (.invalid 4 (.ofByte 216))) := by
    cases made
    decide +kernel
  obtain ⟨⟨last, _⟩, ran, same⟩ := Option.map_eq_some_iff.mp ended
  obtain ⟨place, cells, rfl⟩ := by simpa only [Prod.mk.injEq] using same
  have on := new_onTape made
  have fails := (failure_points_at_instruction_iff on (by rw [home]; decide) ran (by simp)).2
  rw [place] at fails
  refine ⟨m, last, made, on, home, ran, cells, ?_⟩
  rcases fails with ⟨fails, _⟩ | ⟨beyond, _⟩
  · exact fails
  · cases beyond

/-- A jump back that is longer than the program in front of it. -/
def overshoots : Except SizeProblem Machine :=
  new #[.add 1, .jnz 5] [.tapeSize 1]

/-- The run fails, and there is no instruction where it points. -/
theorem overshot_run_points_nowhere : ∃ m last e, overshoots = .ok m ∧ m.tape.OnTape ∧ m.pc = 0 ∧
    m.run 9 = some (last, .error e) ∧ (∀ io, e ≠ .io io) ∧ last.pc.toInt = -3 ∧
    ¬ FailsAtPc { m with count := 0 } last e := by
  obtain ⟨m, made⟩ : ∃ m, overshoots = .ok m := ⟨_, rfl⟩
  have home : m.pc = 0 := by
    cases made
    rfl
  have ended : (m.run 9).map (fun x => (x.1.pc.toInt, x.2)) =
      some (-3, .error (.fault ⟨-3⟩ (.index (-3) 2))) := by
    cases made
    decide +kernel
  obtain ⟨⟨last, _⟩, ran, same⟩ := Option.map_eq_some_iff.mp ended
  obtain ⟨place, rfl⟩ := by simpa only [Prod.mk.injEq] using same
  refine ⟨m, last, _, made, new_onTape made, home, ran, by simp, place, ?_⟩
  intro fails
  have low := fails.low
  omega

end Machine

end TapeLang
