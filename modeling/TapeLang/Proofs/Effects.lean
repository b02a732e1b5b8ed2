import TapeLang.Machine.Exec
import TapeLang.Proofs.TapeLoops

/-! # The effects of instructions

What each instruction does to a state whose pointer lies on the tape: no
instruction faults there, and none leaves it. A second reading of the
instructions is faithful to the loops they stand for: pouring a cell that is
not zero onto itself then never ends, as the loop would not.
-/

namespace TapeLang

namespace Tape

theorem rangeFault?_of_onTape {t : Tape} (on : t.OnTape) : t.rangeFault? = none := by
  obtain ⟨low, high⟩ := on
  have size_le : t.size ≤ 281474976710656 := t.size_le
  have one : (1 : Int64).toInt = 1 := by decide
  have zero : (0 : Int64).toInt = 0 := by decide
  have stop : (t.ptr + 1).toInt = t.ptr.toInt + 1 := by
    rw [Int64.toInt_add, one, Int.bmod_eq_of_le] <;> omega
  rw [rangeFault?]
  simp only [Int64.lt_iff_toInt_lt, stop, t.toInt_length, zero]
  rw [if_neg (by omega), if_neg (by omega)]

end Tape

namespace State

/-- The log of what happened on the channels. -/
def log (s : State) : List Event :=
  s.channels.log.toList

@[simp] theorem tape_onTape (f : Tape → Tape) (s : State) : (s.onTape f).tape = f s.tape := rfl

@[simp] theorem channels_onTape (f : Tape → Tape) (s : State) :
    (s.onTape f).channels = s.channels := rfl

@[simp] theorem log_onTape (f : Tape → Tape) (s : State) : (s.onTape f).log = s.log := rfl

theorem onTape_onTape (f g : Tape → Tape) (s : State) :
    (s.onTape f).onTape g = s.onTape fun t => g (f t) := rfl

theorem onTape_congr {f g : Tape → Tape} {s : State} (same : f s.tape = g s.tape) :
    s.onTape f = s.onTape g := by
  simp only [onTape, same]

theorem onTape_eq_self {f : Tape → Tape} {s : State} (same : f s.tape = s.tape) :
    s.onTape f = s := by
  simp only [onTape, same]

theorem touching_of_inRange {s : State} {position : Int64} (inside : s.tape.InRange position)
    (act : State → State × Except Trap Control) : s.touching position act = act s := by
  simp only [touching, Tape.fault?, if_pos inside]

/-- If there is no trap, control goes on as said. -/
def Leads (P : Control → Prop) (x : State × Except Trap Control) : Prop :=
  ∀ control, x.2 = .ok control → P control

theorem leads_ok {P : Control → Prop} {s : State} {control : Control} (h : P control) :
    Leads P (s, .ok control) := by
  rintro _ ⟨⟩
  exact h

theorem leads_error {P : Control → Prop} {s : State} {t : Trap} : Leads P (s, .error t) := by
  rintro _ ⟨⟩

theorem leads_touching {P : Control → Prop} {s : State} {position : Int64}
    {act : State → State × Except Trap Control} (h : Leads P (act s)) :
    Leads P (s.touching position act) := by
  unfold touching
  split
  · exact leads_error
  · exact h

theorem leads_write (s : State) : Leads (· = .next) s.write := by
  obtain ⟨tape, channels⟩ := s
  unfold write
  split
  · exact leads_ok rfl
  · split
    · exact leads_error
    · dsimp only
      split
      · exact leads_error
      · exact leads_ok rfl

theorem leads_store (outcome : ByteRead) (s : State) : Leads (· = .next) (s.store outcome) := by
  cases outcome with
  | byte b => exact leads_touching (leads_ok rfl)
  | ended => exact leads_ok rfl
  | failed message => exact leads_error

theorem leads_read (s : State) : Leads (· = .next) s.read := by
  obtain ⟨tape, channels⟩ := s
  unfold read
  split
  · exact leads_ok rfl
  · dsimp only
    split
    · exact leads_error
    · exact leads_store _ _

/-- What input and output can do to a state. -/
inductive Exchanges (s : State) : State × Except Trap Control → Prop where
  | kept (channels : Channels) : Exchanges s (⟨s.tape, channels⟩, .ok .next)
  | stored (channels : Channels) (b : UInt8) :
      Exchanges s (⟨s.tape.setCell b, channels⟩, .ok .next)
  | failed (channels : Channels) {op : Opcode} (failure : Failure)
      (either : op = .read ∨ op = .write) :
      Exchanges s (⟨s.tape, channels⟩, .error (.io op failure))

theorem Exchanges.onTape {s : State} {x : State × Except Trap Control} (exchanges : s.Exchanges x)
    (on : s.tape.OnTape) : x.1.tape.OnTape := by
  cases exchanges with
  | kept | failed => exact on
  | stored channels b => simpa using on

theorem exchanges_write {s : State} (on : s.tape.OnTape) : s.Exchanges s.write := by
  obtain ⟨tape, channels⟩ := s
  unfold write
  split
  · exact .kept channels
  · rw [Tape.rangeFault?_of_onTape on]
    dsimp only
    split
    · exact .failed _ _ (.inr rfl)
    · exact .kept _

theorem exchanges_read {s : State} (on : s.tape.OnTape) : s.Exchanges s.read := by
  obtain ⟨tape, channels⟩ := s
  unfold read
  split
  · exact .kept channels
  · dsimp only
    split
    · exact .failed _ _ (.inr rfl)
    · next flushed _ =>
        obtain ⟨pulled, outcome⟩ := flushed.pullByte
        cases outcome with
        | byte b =>
            rw [store, touching_of_inRange (s := ⟨tape, pulled⟩) on]
            exact .stored pulled b
        | ended => exact .kept pulled
        | failed message => exact .failed pulled _ (.inl rfl)

end State

namespace Instruction

variable {s : State} (n m : UInt16)

theorem toNat_le_maxSize (n : UInt16) : n.toNat ≤ Tape.maxSize := by
  have := n.toNat_lt
  simp only [Tape.maxSize]
  omega

section OnTape

variable (on : s.tape.OnTape)

include on

theorem exec_add : exec ⟨.add, n, m⟩ s = (s.onTape (·.bump n.toUInt8), .ok .next) := by
  simp only [exec, State.touching_of_inRange on]

theorem exec_zero : exec ⟨.zero, n, m⟩ s = (s.onTape (·.setCell 0), .ok .next) := by
  simp only [exec, State.touching_of_inRange on]

theorem exec_right : exec ⟨.right, n, m⟩ s = (s.onTape (·.shift n.toNat), .ok .next) := by
  simp only [exec, distance]
  rw [State.onTape_congr (Tape.right_eq_shift on (toNat_le_maxSize n))]

theorem exec_left : exec ⟨.left, n, m⟩ s = (s.onTape (·.shift (-n.toNat)), .ok .next) := by
  simp only [exec, distance]
  rw [State.onTape_congr (Tape.left_eq_shift on (toNat_le_maxSize n))]

theorem exec_jez : exec ⟨.jez, n, m⟩ s =
    if s.tape.cell = 0 then (s, .ok (.jump n.toNat)) else (s, .ok .next) := by
  simp only [exec, State.touching_of_inRange on]

theorem exec_jnz : exec ⟨.jnz, n, m⟩ s =
    if s.tape.cell = 0 then (s, .ok .next) else (s, .ok (.jump (-n.toNat))) := by
  simp only [exec, State.touching_of_inRange on]

theorem exec_searchr : exec ⟨.searchr, n, m⟩ s =
    if s.tape.cell = 0 then (s, .ok .next) else (s.onTape (·.shift n.toNat), .ok .again) := by
  simp only [exec, State.whileCell, distance, State.touching_of_inRange on]
  rw [State.onTape_congr (Tape.right_eq_shift on (toNat_le_maxSize n))]

theorem exec_searchl : exec ⟨.searchl, n, m⟩ s =
    if s.tape.cell = 0 then (s, .ok .next) else (s.onTape (·.shift (-n.toNat)), .ok .again) := by
  simp only [exec, State.whileCell, distance, State.touching_of_inRange on]
  rw [State.onTape_congr (Tape.left_eq_shift on (toNat_le_maxSize n))]

theorem exec_amover : exec ⟨.amover, n, m⟩ s =
    (s.onTape fun t => t.pour t.ptr (t.away n.toNat), .ok .next) := by
  have target := Tape.rightOf_eq_away on (toNat_le_maxSize n)
  simp only [exec, distance, target, State.pourTo,
    State.touching_of_inRange (Tape.inRange_away _ s.tape), State.touching_of_inRange on]
  exact congrArg (·, Except.ok Control.next) (State.onTape_congr rfl)

theorem exec_amovel : exec ⟨.amovel, n, m⟩ s =
    (s.onTape fun t => t.pour t.ptr (t.away (-n.toNat)), .ok .next) := by
  have target := Tape.leftOf_eq_away on (toNat_le_maxSize n)
  simp only [exec, distance, target, State.pourTo,
    State.touching_of_inRange (Tape.inRange_away _ s.tape), State.touching_of_inRange on]
  exact congrArg (·, Except.ok Control.next) (State.onTape_congr rfl)

theorem exec_zeror : exec ⟨.zeror, n, m⟩ s = (s.onTape (·.sweep 1 n.toNat), .ok .next) := by
  simp only [exec, State.clearArea, State.touching_of_inRange on, ite_self]
  rw [State.onTape_congr (Tape.zeroRight_eq_sweep on (toNat_le_maxSize n))]

theorem exec_zerol : exec ⟨.zerol, n, m⟩ s = (s.onTape (·.sweep (-1) n.toNat), .ok .next) := by
  simp only [exec, State.clearArea, State.touching_of_inRange on, ite_self]
  rw [State.onTape_congr (Tape.zeroLeft_eq_sweep on (toNat_le_maxSize n))]

theorem exec_mandel : exec ⟨.mandel, n, m⟩ s =
    if s.tape.cell = 0 then (s, .ok .next)
    else (s.onTape fun t =>
      (t.pour (t.away n.toNat) (t.away (n.toNat + m.toNat))).shift (-m.toNat), .ok .again) := by
  have round := Tape.diffuse_eq on (toNat_le_maxSize n) (toNat_le_maxSize m)
  simp only [exec, State.whileCell, distance, distance2, State.touching_of_inRange on, State.onTape,
    round]

/-- No instruction leaves the tape. -/
theorem onTape_exec (i : Instruction) : (i.exec s).1.tape.OnTape := by
  obtain ⟨op, n, m⟩ := i
  have shifted : ∀ d, (s.onTape (·.shift d)).tape.OnTape := fun d => Tape.onTape_shift d _
  cases op with
  | halt | unassigned => exact on
  | add => rw [exec_add n m on]; simpa using on
  | right => rw [exec_right n m on]; exact shifted _
  | left => rw [exec_left n m on]; exact shifted _
  | jez => rw [exec_jez n m on]; split <;> exact on
  | jnz => rw [exec_jnz n m on]; split <;> exact on
  | zero => rw [exec_zero n m on]; simpa using on
  | searchl =>
      rw [exec_searchl n m on]
      split
      · exact on
      · exact shifted _
  | searchr =>
      rw [exec_searchr n m on]
      split
      · exact on
      · exact shifted _
  | amovel => rw [exec_amovel n m on]; simpa using on
  | amover => rw [exec_amover n m on]; simpa using on
  | zerol => rw [exec_zerol n m on]; exact Tape.onTape_sweep _ on
  | zeror => rw [exec_zeror n m on]; exact Tape.onTape_sweep _ on
  | mandel =>
      rw [exec_mandel n m on]
      split
      · exact on
      · exact Tape.onTape_shift _ _
  | write => exact (State.exchanges_write on).onTape on
  | read => exact (State.exchanges_read on).onTape on

end OnTape

/-- Any instruction may go on or be repeated, but only halting stops the program and only jumps ask
    for a jump. -/
theorem leads_exec {P : Control → Prop} {i : Instruction} (s : State) (next : P .next)
    (again : P .again) (stop : i.op = .halt → P .stop)
    (jump : i.op = .jez ∨ i.op = .jnz → ∀ offset, P (.jump offset)) :
    State.Leads P (i.exec s) := by
  have goesOn : ∀ {s}, State.Leads P (s, .ok .next) := State.leads_ok next
  have whileCell : ∀ round, State.Leads P (s.whileCell round) := by
    intro round
    apply State.leads_touching
    split
    · exact goesOn
    · exact State.leads_ok again
  have pourTo : ∀ target, State.Leads P (s.pourTo target) := fun target =>
    State.leads_touching (State.leads_touching goesOn)
  have clearArea : ∀ n clear, State.Leads P (s.clearArea n clear) := by
    intro n clear
    unfold State.clearArea
    split
    · exact State.leads_touching goesOn
    · exact goesOn
  obtain ⟨op, n, m⟩ := i
  cases op with
  | halt => exact State.leads_ok (stop rfl)
  | right | left => exact goesOn
  | add | zero => exact State.leads_touching goesOn
  | jez =>
      apply State.leads_touching
      split
      · exact State.leads_ok (jump (.inl rfl) _)
      · exact goesOn
  | jnz =>
      apply State.leads_touching
      split
      · exact goesOn
      · exact State.leads_ok (jump (.inr rfl) _)
  | searchl | searchr | mandel => exact whileCell _
  | amovel | amover => exact pourTo _
  | zerol | zeror => exact clearArea _ _
  | write =>
      intro control ok
      rwa [State.leads_write s control ok]
  | read =>
      intro control ok
      rwa [State.leads_read s control ok]
  | unassigned => exact State.leads_error

theorem exec_ne_jump {i : Instruction} (notJez : i.op ≠ .jez) (notJnz : i.op ≠ .jnz)
    {s s' : State} {offset : Int} : i.exec s ≠ (s', .ok (.jump offset)) := by
  have leads : State.Leads (· ≠ .jump offset) (i.exec s) :=
    leads_exec s (by simp) (by simp) (by simp) fun jumps => (jumps.elim notJez notJnz).elim
  intro jumps
  exact leads (.jump offset) (by rw [jumps]) rfl

/-- Halting does nothing else. -/
theorem op_of_stop {i : Instruction} {s s' : State} (act : i.exec s = (s', .ok .stop)) :
    i.op = .halt := by
  by_cases halt : i.op = .halt
  · exact halt
  · have leads : State.Leads (· ≠ .stop) (i.exec s) :=
      leads_exec s (by simp) (by simp) (fun halts => (halt halts).elim) (by simp)
    exact absurd rfl (leads .stop (by rw [act]))

theorem exec_stop {i : Instruction} {s s' : State} (act : i.exec s = (s', .ok .stop)) :
    s' = s := by
  have halt := op_of_stop act
  simp only [exec, halt] at act
  cases act
  rfl

/-- Executing the instruction pours a cell that is not zero onto itself. -/
def PoursOntoItself (i : Instruction) (s : State) : Prop :=
  s.tape.cell ≠ 0 ∧
    ((i.op = .amovel ∨ i.op = .amover) ∧ s.tape.size ∣ i.arg.toNat ∨
      i.op = .mandel ∧ s.tape.size ∣ i.arg2.toNat ∧
        s.tape.peek (s.tape.rightOf s.tape.ptr i.distance) ≠ 0)

instance (i : Instruction) (s : State) : Decidable (i.PoursOntoItself s) :=
  inferInstanceAs (Decidable (_ ∧ _))

/-- Execute an instruction, if asked for faithfully to the loop it stands for:
    then a cell is poured onto itself for ever. -/
def execAs (faithful : Bool) (i : Instruction) (s : State) : State × Except Trap Control :=
  if faithful ∧ i.PoursOntoItself s then (s, .ok .again) else i.exec s

section Faithful

variable {f : Bool} {i : Instruction}

theorem execAs_false : i.execAs false s = i.exec s := by
  simp [execAs]

theorem execAs_of_not_pours (safe : ¬ i.PoursOntoItself s) : i.execAs f s = i.exec s := by
  simp [execAs, safe]

theorem execAs_of_pours (pours : i.PoursOntoItself s) : i.execAs true s = (s, .ok .again) := by
  simp [execAs, pours]

/-- Instructions that never pour a cell onto itself. -/
def Harmless (i : Instruction) : Prop :=
  i.op ≠ .amovel ∧ i.op ≠ .amover ∧ i.op ≠ .mandel

theorem Harmless.execAs (h : i.Harmless) (f : Bool) (s : State) : i.execAs f s = i.exec s := by
  apply execAs_of_not_pours
  rintro ⟨_, ⟨hop | hop, _⟩ | ⟨hop, _⟩⟩
  · exact h.1 hop
  · exact h.2.1 hop
  · exact h.2.2 hop

theorem onTape_of_execAs {s' : State} {x : Except Trap Control} (act : i.execAs f s = (s', x))
    (on : s.tape.OnTape) : s'.tape.OnTape := by
  unfold Instruction.execAs at act
  split at act
  · cases act
    exact on
  · have kept := onTape_exec on i
    rwa [act] at kept

theorem execAs_ne_jump (notJez : i.op ≠ .jez) (notJnz : i.op ≠ .jnz)
    {s' : State} {offset : Int} : i.execAs f s ≠ (s', .ok (.jump offset)) := by
  unfold Instruction.execAs
  split
  · simp
  · exact exec_ne_jump notJez notJnz

end Faithful

end Instruction

end TapeLang
