import TapeLang.Proofs.Steps

/-! # Symmetries of the tape

A tape is a circle of cells. A symmetry carries each cell, and the pointer with them, to
a place of its own, such that cells keep their distances along the circle, in the same
direction or in the other. Operations on tapes commute with it. If each instruction of a
program does before it what some instruction does behind it, then so do runs of any
length.
-/

namespace TapeLang

/-- A way to carry the cells of tapes to other places. -/
structure Symmetry where
  carry : Tape → Tape
  /-- Where the cell at a position comes to, on a tape of the given size. -/
  place : Nat → Int64 → Int64
  /-- What comes to a position. -/
  origin : Nat → Int64 → Int64
  /-- What a move by one becomes a move by. -/
  sense : Int
  size_carry : ∀ t, (carry t).size = t.size
  ptr_carry : ∀ t, (carry t).ptr = place t.size t.ptr
  inRange_place : ∀ {t : Tape} {p}, t.InRange p → t.InRange (place t.size p)
  inRange_origin : ∀ {t : Tape} {p}, t.InRange p → t.InRange (origin t.size p)
  place_origin : ∀ {t : Tape} {p}, t.InRange p → place t.size (origin t.size p) = p
  origin_place : ∀ {t : Tape} {p}, t.InRange p → origin t.size (place t.size p) = p
  peek_carry : ∀ {t : Tape} {p}, t.InRange p → (carry t).peek (place t.size p) = t.peek p
  place_away : ∀ {t : Tape} (d : Int), t.OnTape →
    place t.size (t.away d) = (carry t).away (sense * d)

namespace Symmetry

variable {σ : Symmetry} {t u : Tape} {p q : Int64} {d e : Int}

theorem inRange_carry : (σ.carry t).InRange q ↔ t.InRange q := by
  simp only [Tape.InRange, size_carry]

theorem onTape_carry (on : t.OnTape) : (σ.carry t).OnTape := by
  rw [Tape.OnTape, inRange_carry, ptr_carry]
  exact σ.inRange_place on

theorem place_inj (hp : t.InRange p) (hq : t.InRange q) :
    σ.place t.size p = σ.place t.size q ↔ p = q := by
  constructor
  · intro same
    rw [← σ.origin_place hp, same, σ.origin_place hq]
  · rintro rfl
    rfl

/-- A tape is known to be a carried one by its cells, each looked up where it has come to. -/
theorem eq_carry (size_eq : u.size = t.size) (ptr_eq : u.ptr = σ.place t.size t.ptr)
    (cells_eq : ∀ p, t.InRange p → u.peek (σ.place t.size p) = t.peek p) : u = σ.carry t := by
  apply Tape.eq_of_peek (size_eq.trans (σ.size_carry t).symm)
    (ptr_eq.trans (σ.ptr_carry t).symm)
  intro q hq
  have hq : t.InRange q := by simpa only [Tape.InRange, size_eq] using hq
  have origin := σ.inRange_origin hq
  rw [← σ.place_origin hq, cells_eq _ origin, σ.peek_carry origin]

/-! ## Operations on tapes -/

theorem cell_carry (on : t.OnTape) : (σ.carry t).cell = t.cell := by
  rw [Tape.cell, ptr_carry, σ.peek_carry on, Tape.cell]

theorem poke_carry (hp : t.InRange p) (v : UInt8) :
    (σ.carry t).poke (σ.place t.size p) v = σ.carry (t.poke p v) := by
  apply eq_carry
  · rw [Tape.size_poke, size_carry, Tape.size_poke]
  · rw [Tape.ptr_poke, Tape.ptr_poke, ptr_carry, Tape.size_poke]
  intro q hq
  have hq : t.InRange q := by simpa using hq
  have apart := place_inj (σ := σ) hp hq
  rw [Tape.size_poke, Tape.peek_poke (inRange_carry.mpr (σ.inRange_place hp))
    (inRange_carry.mpr (σ.inRange_place hq)), Tape.peek_poke hp hq, σ.peek_carry hq]
  simp only [apart]

theorem setCell_carry (on : t.OnTape) (v : UInt8) :
    (σ.carry t).setCell v = σ.carry (t.setCell v) := by
  rw [Tape.setCell, ptr_carry, poke_carry on, Tape.setCell]

theorem bump_carry (on : t.OnTape) (v : UInt8) : (σ.carry t).bump v = σ.carry (t.bump v) := by
  rw [Tape.bump, cell_carry on, setCell_carry on, Tape.bump]

/-- A move is a move by as much, in the direction that its own has come to. -/
theorem shift_carry (turned : σ.sense * d = e) (on : t.OnTape) :
    (σ.carry t).shift e = σ.carry (t.shift d) := by
  apply eq_carry
  · rw [Tape.size_shift, size_carry, Tape.size_shift]
  · rw [← turned]
    exact (σ.place_away d on).symm
  intro p hp
  exact σ.peek_carry hp

theorem pour_carry (hp : t.InRange p) (hq : t.InRange q) :
    (σ.carry t).pour (σ.place t.size p) (σ.place t.size q) = σ.carry (t.pour p q) := by
  have hp' : (t.poke q (t.peek q + t.peek p)).InRange p := by simpa using hp
  have poured := poke_carry (σ := σ) hp' 0
  rw [Tape.size_poke] at poured
  rw [Tape.pour, σ.peek_carry hp, σ.peek_carry hq, poke_carry hq, poured, Tape.pour]

theorem pour_away_carry (turned : σ.sense * d = e) (on : t.OnTape) :
    (σ.carry t).pour (σ.carry t).ptr ((σ.carry t).away e) = σ.carry (t.pour t.ptr (t.away d)) := by
  rw [ptr_carry, ← turned, ← σ.place_away d on, pour_carry on (Tape.inRange_away d t)]

theorem sweep_carry (turned : σ.sense * d = e) (n : Nat) (on : t.OnTape) :
    (σ.carry t).sweep e n = σ.carry (t.sweep d n) := by
  induction n generalizing t with
  | zero => rfl
  | succ n ih =>
      have on' : (t.setCell 0).OnTape := (Tape.onTape_setCell t 0).mpr on
      rw [Tape.sweep, setCell_carry on, shift_carry turned on', ih (Tape.onTape_shift d _),
        Tape.sweep]

end Symmetry

/-! ## Instructions -/

/-- Carry the cells of the tape. -/
def State.carried (σ : Symmetry) (s : State) : State :=
  s.onTape σ.carry

namespace State

variable {σ : Symmetry} {s : State} {f g : Tape → Tape}

theorem onTape_carried (same : f (σ.carry s.tape) = σ.carry (g s.tape)) :
    (s.carried σ).onTape f = (s.onTape g).carried σ := by
  simp only [carried, onTape, same]

theorem write_carried (on : s.tape.OnTape) :
    (s.carried σ).write = (s.write.1.carried σ, s.write.2) := by
  obtain ⟨t, channels⟩ := s
  have here := Tape.rangeFault?_of_onTape on
  have there := Tape.rangeFault?_of_onTape (Symmetry.onTape_carry (σ := σ) on)
  have same := Symmetry.cell_carry (σ := σ) on
  cases absent : channels.output.isNone with
  | true => simp [write, carried, onTape, absent]
  | false =>
      simp only [write, carried, onTape, absent, Bool.false_eq_true, if_false, here, there, same]
      rcases channels.write t.cell with ⟨after, _ | _⟩ <;> rfl

theorem store_carried (outcome : ByteRead) (on : s.tape.OnTape) :
    (s.carried σ).store outcome = ((s.store outcome).1.carried σ, (s.store outcome).2) := by
  cases outcome with
  | byte b =>
      have there : (s.carried σ).tape.InRange (s.carried σ).tape.ptr := Symmetry.onTape_carry on
      rw [store, store, touching_of_inRange there, touching_of_inRange on,
        onTape_carried (Symmetry.setCell_carry on b)]
  | ended | failed => rfl

theorem read_carried (on : s.tape.OnTape) :
    (s.carried σ).read = (s.read.1.carried σ, s.read.2) := by
  obtain ⟨t, channels⟩ := s
  by_cases absent : channels.input = .absent
  · simp [read, carried, onTape, absent]
  · simp only [read, carried, onTape, absent, if_false]
    rcases channels.flush with ⟨flushed, _ | _⟩
    · exact store_carried (s := ⟨t, flushed.pullByte.1⟩) flushed.pullByte.2 on
    · rfl

theorem finish_carried : (s.carried σ).finish = (s.finish.1.carried σ, s.finish.2) := by
  obtain ⟨t, channels⟩ := s
  simp only [finish, carried, onTape]
  rcases channels.flush with ⟨flushed, _ | _⟩ <;> rfl

end State

/-- Whether an operation goes along the tape. -/
def Opcode.directed : Opcode → Bool
  | .right | .left | .searchl | .searchr | .amovel | .amover | .zerol | .zeror | .mandel => true
  | .halt | .add | .jez | .jnz | .zero | .write | .read | .unassigned _ => false

namespace Instruction

variable {σ : Symmetry} {i j : Instruction} {f g : Tape → Tape} {control zero : Control}

/-- On a carried tape, `j` does what `i` does on the tape itself. -/
def Carries (σ : Symmetry) (i j : Instruction) : Prop :=
  ∀ s : State, s.tape.OnTape → j.exec (s.carried σ) = ((i.exec s).1.carried σ, (i.exec s).2)

theorem Carries.of_onTape
    (exec : ∀ {s : State}, s.tape.OnTape → i.exec s = (s.onTape g, .ok control))
    (exec' : ∀ {s : State}, s.tape.OnTape → j.exec s = (s.onTape f, .ok control))
    (same : ∀ {t : Tape}, t.OnTape → f (σ.carry t) = σ.carry (g t)) : Carries σ i j := by
  intro s on
  have there : (s.carried σ).tape.OnTape := Symmetry.onTape_carry on
  rw [exec' there, exec on, State.onTape_carried (same on)]

/-- Instructions that look at the current cell first. -/
theorem Carries.of_test
    (exec : ∀ {s : State}, s.tape.OnTape → i.exec s =
      if s.tape.cell = 0 then (s, .ok zero) else (s.onTape g, .ok control))
    (exec' : ∀ {s : State}, s.tape.OnTape → j.exec s =
      if s.tape.cell = 0 then (s, .ok zero) else (s.onTape f, .ok control))
    (same : ∀ {t : Tape}, t.OnTape → f (σ.carry t) = σ.carry (g t)) : Carries σ i j := by
  intro s on
  have there : (s.carried σ).tape.OnTape := Symmetry.onTape_carry on
  have cell : (s.carried σ).tape.cell = s.tape.cell := Symmetry.cell_carry on
  rw [exec' there, exec on, cell]
  split
  · rfl
  · rw [State.onTape_carried (same on)]

theorem carries_of_undirected (still : i.op.directed = false) : Carries σ i i := by
  obtain ⟨op, n, m⟩ := i
  cases op with
  | right | left | searchl | searchr | amovel | amover | zerol | zeror | mandel => cases still
  | halt | unassigned => exact fun _ _ => rfl
  | add =>
      exact .of_onTape (exec_add n m) (exec_add n m) fun on => Symmetry.bump_carry on n.toUInt8
  | zero => exact .of_onTape (exec_zero n m) (exec_zero n m) fun on => Symmetry.setCell_carry on 0
  | jez =>
      exact .of_test (f := fun t => t) (g := fun t => t) (exec_jez n m) (exec_jez n m) fun _ => rfl
  | jnz =>
      exact .of_test (f := fun t => t) (g := fun t => t) (exec_jnz n m) (exec_jnz n m) fun _ => rfl
  | write => exact fun _ on => State.write_carried on
  | read => exact fun _ on => State.read_carried on

end Instruction

/-! ## Runs -/

namespace Machine

variable {σ : Symmetry} {rename : Instruction → Instruction} {m : Machine}

/-- Carry the cells of the tape, and put other instructions in the place of those in the program. -/
def carried (σ : Symmetry) (rename : Instruction → Instruction) (m : Machine) : Machine :=
  { m with program := m.program.map rename, state := m.state.carried σ }

theorem finish_carried :
    (m.carried σ rename).finish = (m.finish.1.carried σ rename, m.finish.2) := by
  have same : (m.carried σ rename).state.finish =
      (m.state.finish.1.carried σ, m.state.finish.2) :=
    State.finish_carried
  rw [finish_eq, finish_eq, same]
  rfl

theorem perform_carried {i : Instruction} (carries : i.Carries σ (rename i))
    (on : m.tape.OnTape) : (m.carried σ rename).perform (rename i) =
      ((m.perform i).1.carried σ rename, (m.perform i).2) := by
  obtain ⟨program, pc, count, s⟩ := m
  have same := carries s on
  rcases act : i.exec s with ⟨s', trap | control⟩
  · simp only [perform, carried, same, act]
  · cases control with
    | next | again | jump => simp only [perform, carried, same, act]
    | stop =>
        simp only [perform, carried, same, act]
        exact finish_carried (m := ⟨program, pc, count + 1, s'⟩)

/-- One step, before or behind the symmetry. -/
theorem step_carried (carries : ∀ i ∈ m.program, i.Carries σ (rename i)) (on : m.tape.OnTape) :
    (m.carried σ rename).step = (m.step.1.carried σ rename, m.step.2) := by
  have pc : (m.carried σ rename).pc = m.pc := rfl
  have size : (m.carried σ rename).program.size = m.program.size := Array.size_map
  have lookup : ∀ k : Nat, (m.carried σ rename).program[k]? = m.program[k]?.map rename :=
    fun k => Array.getElem?_map
  by_cases low : m.pc.toInt < 0
  · rw [step_of_low (m := m.carried σ rename) low, step_of_low low, size]
    rfl
  cases found : m.program[m.pc.toInt.toNat]? with
  | none => simp only [step, pc, if_neg low, lookup, found, Option.map_none, finish_carried]
  | some i =>
      have carries := carries i (Array.mem_of_getElem? found)
      simp only [step, pc, if_neg low, lookup, found, Option.map_some, perform_carried carries on]

theorem resume_carried (limit : Nat) (carries : ∀ i ∈ m.program, i.Carries σ (rename i))
    (on : m.tape.OnTape) : (m.carried σ rename).resume limit =
      (m.resume limit).map (Prod.map (carried σ rename) id) := by
  induction limit generalizing m with
  | zero => rfl
  | succ limit ih =>
      have kept := onTape_step on
      have same := step_carried carries on
      have program := m.steps_step.program
      rcases moved : m.step with ⟨m', _ | outcome⟩
      · rw [moved] at kept same program
        rw [resume, same, resume, moved]
        exact ih (by rwa [program]) kept
      · rw [moved] at same
        rw [resume, same, resume, moved]
        rfl

end Machine

end TapeLang
