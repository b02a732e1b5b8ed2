import TapeLang.Machine.Setup
import TapeLang.Proofs.WellFormed

/-! # Well-formed programs run safely

A machine with a well-formed program that starts on its tape stays on it, and its
program counter stays within the program. It touches no cell off the tape, and
nothing but a failure of its input or output can end its run badly. This is said
of one step first; runs of any length follow.
-/

namespace TapeLang

/-! ## What instructions touch -/

/-- The positions of an area of `n` cells, which are passed one by one unless the
    area reaches around the tape. -/
def Tape.area (n : Nat) (pass : Nat → Int64) (t : Tape) : List Int64 :=
  if t.size ≤ n then (List.range t.size).map Int64.ofNat else (List.range n).map pass

/-- The positions whose cells an instruction reads or writes. -/
def Instruction.touches (i : Instruction) (t : Tape) : List Int64 :=
  match i.op with
  | .halt | .right | .left | .unassigned _ => []
  | .add | .jez | .jnz | .zero | .searchl | .searchr | .write | .read => [t.ptr]
  | .amovel => [t.leftOf t.ptr i.distance, t.ptr]
  | .amover => [t.rightOf t.ptr i.distance, t.ptr]
  | .zerol => t.area i.arg.toNat fun k => (t.sweepLeft k).ptr
  | .zeror => t.area i.arg.toNat fun k => (t.sweepRight k).ptr
  | .mandel =>
    let source := t.rightOf t.ptr i.distance
    [t.ptr, t.rightOf source i.distance2, source]

namespace Tape

variable {t : Tape} {q : Int64}

theorem inRange_of_mem_area {n : Nat} {pass : Nat → Int64} (passed : ∀ k, t.InRange (pass k))
    (member : q ∈ t.area n pass) : t.InRange q := by
  unfold area at member
  split at member
  · obtain ⟨k, lt, rfl⟩ := List.mem_map.mp member
    have lt := List.mem_range.mp lt
    have le : k ≤ maxSize := Nat.le_trans (Nat.le_of_lt lt) t.size_le
    simp only [InRange, toInt_ofNat le]
    omega
  · obtain ⟨k, _, rfl⟩ := List.mem_map.mp member
    exact passed k

theorem mem_area_of_inRange {n : Nat} {pass : Nat → Int64} (hq : t.InRange q)
    (met : ∃ k < n, q = pass k) : q ∈ t.area n pass := by
  unfold area
  split
  · obtain ⟨low, high⟩ := hq
    refine List.mem_map.mpr ⟨q.toInt.toNat, List.mem_range.mpr (by omega), ?_⟩
    apply Int64.toInt_inj.mp
    have size_le : t.size ≤ maxSize := t.size_le
    rw [toInt_ofNat (by omega)]
    omega
  · obtain ⟨k, lt, rfl⟩ := met
    exact List.mem_map.mpr ⟨k, List.mem_range.mpr lt, rfl⟩

theorem peek_sweep_of_not_mem {d : Int} {n : Nat} (on : t.OnTape) (hq : t.InRange q)
    (outside : q ∉ t.area n fun k => (t.sweep d k).ptr) : (t.sweep d n).peek q = t.peek q := by
  rcases peek_sweep n on hq with ⟨_, k, lt, here⟩ | ⟨kept, _⟩
  · refine absurd (mem_area_of_inRange hq ⟨k, lt, ?_⟩) outside
    rw [ptr_sweep k on, here]
  · exact kept

theorem peek_pour_of_not_mem {a b : Int64} {touched : List Int64} (ha : t.InRange a)
    (hb : t.InRange b) (hq : t.InRange q) (memA : a ∈ touched) (memB : b ∈ touched)
    (outside : q ∉ touched) : (t.pour a b).peek q = t.peek q := by
  have notA : a ≠ q := fun same => outside (same ▸ memA)
  have notB : b ≠ q := fun same => outside (same ▸ memB)
  rw [pour, peek_poke (by simpa using ha) (by simpa using hq), if_neg notA, peek_poke hb hq,
    if_neg notB]

end Tape

namespace Instruction

variable {s : State}

section Touching

variable {t : Tape} {q : Int64} (n m : UInt16) (on : t.OnTape)

include on

theorem touches_amovel : touches ⟨.amovel, n, m⟩ t = [t.away (-n.toNat), t.ptr] := by
  simp only [touches, distance, Tape.leftOf_eq_away on (toNat_le_maxSize n)]

theorem touches_amover : touches ⟨.amover, n, m⟩ t = [t.away n.toNat, t.ptr] := by
  simp only [touches, distance, Tape.rightOf_eq_away on (toNat_le_maxSize n)]

theorem touches_zerol :
    touches ⟨.zerol, n, m⟩ t = t.area n.toNat fun k => (t.sweep (-1) k).ptr := by
  simp only [touches, Tape.sweepLeft_eq_sweep _ on]

theorem touches_zeror :
    touches ⟨.zeror, n, m⟩ t = t.area n.toNat fun k => (t.sweep 1 k).ptr := by
  simp only [touches, Tape.sweepRight_eq_sweep _ on]

theorem touches_mandel : touches ⟨.mandel, n, m⟩ t =
    [t.ptr, t.away (n.toNat + m.toNat), t.away n.toNat] := by
  simp only [touches, distance, distance2, Tape.rightOf_eq_away on (toNat_le_maxSize n),
    Tape.rightOf_away t n.toNat (toNat_le_maxSize m)]

/-- From a state on the tape, no instruction touches a cell off it. -/
theorem inRange_touches (i : Instruction) : ∀ q ∈ i.touches t, t.InRange q := by
  have away : ∀ d, t.InRange (t.away d) := fun d => Tape.inRange_away d t
  have passed : ∀ d k, t.InRange (t.sweep d k).ptr := by
    intro d k
    rw [Tape.ptr_sweep k on]
    exact away _
  have here : t.InRange t.ptr := on
  obtain ⟨op, n, m⟩ := i
  cases op with
  | halt | right | left | unassigned => simp [touches]
  | add | jez | jnz | zero | searchl | searchr | write | read => simp [touches, here]
  | amovel => simp [touches_amovel n m on, here, away]
  | amover => simp [touches_amover n m on, here, away]
  | mandel => simp [touches_mandel n m on, here, away]
  | zerol =>
      rw [touches_zerol n m on]
      exact fun q => Tape.inRange_of_mem_area (passed (-1))
  | zeror =>
      rw [touches_zeror n m on]
      exact fun q => Tape.inRange_of_mem_area (passed 1)

end Touching

/-- Executing the instruction touches only the cells it says, keeps the size of the
    tape, and fails only where the input or the output does. -/
structure Behaves (i : Instruction) (s : State) : Prop where
  frame : ∀ q, s.tape.InRange q → q ∉ i.touches s.tape →
    (i.exec s).1.tape.peek q = s.tape.peek q
  size_eq : (i.exec s).1.tape.size = s.tape.size
  traps : ∀ trap, (i.exec s).2 = .error trap →
    ∃ op failure, (op = .read ∨ op = .write) ∧ trap = .io op failure

section Behaving

variable {i : Instruction} {control : Control} {f : Tape → Tape}

theorem Behaves.of_onTape (same : i.exec s = (s.onTape f, .ok control))
    (size_eq : (f s.tape).size = s.tape.size)
    (frame : ∀ q, s.tape.InRange q → q ∉ i.touches s.tape → (f s.tape).peek q = s.tape.peek q) :
    i.Behaves s := by
  refine ⟨?_, ?_, ?_⟩
  · rw [same]
    exact frame
  · rw [same]
    exact size_eq
  · intro trap failed
    rw [same] at failed
    cases failed

theorem Behaves.of_idle (same : i.exec s = (s, .ok control)) : i.Behaves s := by
  have same : i.exec s = (s.onTape fun t => t, .ok control) := same
  exact .of_onTape same rfl fun q _ _ => rfl

theorem Behaves.of_exchange (exchanges : s.Exchanges (i.exec s)) (on : s.tape.OnTape)
    (here : i.touches s.tape = [s.tape.ptr]) : i.Behaves s := by
  generalize act : i.exec s = x at exchanges
  cases exchanges with
  | kept =>
      exact ⟨by simp [act], by simp [act], by simp [act]⟩
  | stored channels b =>
      refine ⟨?_, by simp [act], by simp [act]⟩
      intro q hq untouched
      have apart : q ≠ s.tape.ptr := by simpa [here] using untouched
      rw [act, Tape.peek_setCell on hq, if_neg apart.symm]
  | failed channels failure either =>
      refine ⟨by simp [act], by simp [act], ?_⟩
      rw [act]
      rintro _ ⟨⟩
      exact ⟨_, failure, either, rfl⟩

end Behaving

/-- Every instruction that names an operation behaves on a tape. -/
theorem behaves (i : Instruction) (named : i.op.isNamed = true) (on : s.tape.OnTape) :
    i.Behaves s := by
  obtain ⟨op, n, m⟩ := i
  have shifted : ∀ {j : Instruction} {control : Control} {d : Int},
      j.exec s = (s.onTape (·.shift d), .ok control) → j.Behaves s := by
    intro j control d same
    exact .of_onTape same (Tape.size_shift _ d) fun q _ _ => rfl
  cases op with
  | halt => exact .of_idle rfl
  | unassigned code => cases named
  | right => exact shifted (exec_right n m on)
  | left => exact shifted (exec_left n m on)
  | jez =>
      have same := exec_jez n m on
      split at same <;> exact .of_idle same
  | jnz =>
      have same := exec_jnz n m on
      split at same <;> exact .of_idle same
  | searchl =>
      have same := exec_searchl n m on
      split at same
      · exact .of_idle same
      · exact shifted same
  | searchr =>
      have same := exec_searchr n m on
      split at same
      · exact .of_idle same
      · exact shifted same
  | add =>
      refine .of_onTape (exec_add n m on) (Tape.size_bump _ _) ?_
      intro q hq untouched
      have apart : q ≠ s.tape.ptr := by simpa [touches] using untouched
      rw [Tape.peek_bump on hq, if_neg apart.symm]
  | zero =>
      refine .of_onTape (exec_zero n m on) (Tape.size_setCell _ _) ?_
      intro q hq untouched
      have apart : q ≠ s.tape.ptr := by simpa [touches] using untouched
      rw [Tape.peek_setCell on hq, if_neg apart.symm]
  | amovel =>
      refine .of_onTape (exec_amovel n m on) (by simp) ?_
      rw [touches_amovel n m on]
      intro q hq
      exact Tape.peek_pour_of_not_mem on (Tape.inRange_away _ _) hq (by simp) (by simp)
  | amover =>
      refine .of_onTape (exec_amover n m on) (by simp) ?_
      rw [touches_amover n m on]
      intro q hq
      exact Tape.peek_pour_of_not_mem on (Tape.inRange_away _ _) hq (by simp) (by simp)
  | zerol =>
      refine .of_onTape (exec_zerol n m on) (Tape.size_sweep ..) ?_
      intro q hq untouched
      rw [touches_zerol n m on] at untouched
      exact Tape.peek_sweep_of_not_mem on hq untouched
  | zeror =>
      refine .of_onTape (exec_zeror n m on) (Tape.size_sweep ..) ?_
      intro q hq untouched
      rw [touches_zeror n m on] at untouched
      exact Tape.peek_sweep_of_not_mem on hq untouched
  | mandel =>
      have same := exec_mandel n m on
      split at same
      · exact .of_idle same
      · refine .of_onTape same (by simp) ?_
        rw [touches_mandel n m on]
        intro q hq
        exact Tape.peek_pour_of_not_mem (Tape.inRange_away _ _) (Tape.inRange_away _ _) hq (by simp)
          (by simp)
  | write => exact .of_exchange (State.exchanges_write on) on rfl
  | read => exact .of_exchange (State.exchanges_read on) on rfl

theorem exec_jump {i : Instruction} {s' : State} {offset : Int} (on : s.tape.OnTape)
    (act : i.exec s = (s', .ok (.jump offset))) :
    (i.op = .jez ∧ offset = i.arg.toNat) ∨ (i.op = .jnz ∧ offset = -i.arg.toNat) := by
  obtain ⟨op, n, m⟩ := i
  by_cases jez : op = .jez
  · subst jez
    rw [exec_jez n m on] at act
    split at act
    · cases act
      exact .inl ⟨rfl, rfl⟩
    · cases act
  by_cases jnz : op = .jnz
  · subst jnz
    rw [exec_jnz n m on] at act
    split at act
    · cases act
    · cases act
      exact .inr ⟨rfl, rfl⟩
  exact absurd act (exec_ne_jump jez jnz)

end Instruction

/-! ## Where jumps lead -/

namespace Program.WellFormed

variable {p : Program} {k : Nat} {i : Instruction}

theorem jez_lt (wellFormed : p.WellFormed) (found : p[k]? = some i) (op : i.op = .jez) :
    k + i.arg.toNat < p.size := by
  obtain ⟨pair, member, place⟩ := wellFormed.paired k i found (.inl op)
  obtain ⟨o, e, found', last, opens, closes, out, _⟩ := wellFormed.distances pair member
  obtain ⟨inside, _⟩ := Array.getElem?_eq_some_iff.mp last
  rcases place with rfl | rfl
  · cases found.symm.trans found'
    omega
  · cases found.symm.trans last
    cases op.symm.trans closes

theorem jnz_le (wellFormed : p.WellFormed) (found : p[k]? = some i) (op : i.op = .jnz) :
    i.arg.toNat ≤ k := by
  obtain ⟨pair, member, place⟩ := wellFormed.paired k i found (.inr op)
  obtain ⟨o, e, found', last, opens, closes, _, back⟩ := wellFormed.distances pair member
  rcases place with rfl | rfl
  · cases found.symm.trans found'
    cases op.symm.trans opens
  · cases found.symm.trans last
    omega

/-- A jump lands on an instruction, or behind the last one. -/
theorem jump_inside {s s' : State} {offset : Int} (wellFormed : p.WellFormed)
    (found : p[k]? = some i) (on : s.tape.OnTape) (act : i.exec s = (s', .ok (.jump offset))) :
    0 ≤ k + offset + 1 ∧ k + offset + 1 ≤ p.size := by
  obtain ⟨inside, _⟩ := Array.getElem?_eq_some_iff.mp found
  rcases Instruction.exec_jump on act with ⟨op, rfl⟩ | ⟨op, rfl⟩
  · have lt := wellFormed.jez_lt found op
    omega
  · have le := wellFormed.jnz_le found op
    omega

end Program.WellFormed

/-! ## Steps and runs -/

/-- An outcome that only the input or the output could spoil. -/
def Outcome.BlamesChannels (outcome : Outcome) : Prop :=
  outcome = .ok () ∨ ∃ e : IoError, outcome = .error (.io e) ∧ (e.op = .read ∨ e.op = .write)

namespace Machine

/-- The machine runs this program on a tape of this size, control is within the
    program or right behind it, and the pointer is on the tape. So is everything
    that the next instruction touches. -/
structure Safe (program : Program) (size : Nat) (m : Machine) : Prop where
  program_eq : m.program = program
  size_eq : m.tape.size = size
  low : 0 ≤ m.pc.toInt
  high : m.pc.toInt ≤ program.size
  onTape : m.tape.OnTape
  next : ∀ i, m.current? = some i → i.Behaves m.state ∧ ∀ q ∈ i.touches m.tape, m.tape.InRange q

variable {program : Program} {size : Nat} {m : Machine}

/-- A step leads to a safe machine, and only the channels can spoil a run with it. -/
def SafeStep (program : Program) (size : Nat) (x : Machine × Option Outcome) : Prop :=
  x.1.Safe program size ∧ ∀ outcome, x.2 = some outcome → outcome.BlamesChannels

theorem mem_of_current? {i : Instruction} (found : m.current? = some i) : i ∈ m.program.toList := by
  unfold current? at found
  split at found
  · cases found
  · exact Array.mem_toList_iff.mpr (Array.mem_of_getElem? found)

section Steps

variable {pc : Address} {count : Nat} {s : State} (wellFormed : program.WellFormed)
  (size_eq : s.tape.size = size) (low : 0 ≤ pc.toInt) (high : pc.toInt ≤ program.size)
  (on : s.tape.OnTape)

include wellFormed size_eq low high on

theorem safe_of_onTape : Safe program size ⟨program, pc, count, s⟩ := by
  refine ⟨rfl, size_eq, low, high, on, ?_⟩
  intro i found
  have proper := wellFormed.proper i (mem_of_current? found)
  exact ⟨i.behaves proper.named on, Instruction.inRange_touches on i⟩

theorem safeStep_of_goesOn : SafeStep program size (⟨program, pc, count, s⟩, none) := by
  refine ⟨safe_of_onTape wellFormed size_eq low high on, ?_⟩
  rintro _ ⟨⟩

theorem safeStep_finish : SafeStep program size (finish ⟨program, pc, count, s⟩) := by
  obtain ⟨tape, channels⟩ := s
  unfold finish
  dsimp only
  split
  · refine ⟨safe_of_onTape wellFormed size_eq low high on, ?_⟩
    rintro _ ⟨⟩
    exact .inr ⟨_, rfl, .inr rfl⟩
  · refine ⟨safe_of_onTape wellFormed size_eq low high on, ?_⟩
    rintro _ ⟨⟩
    exact .inl rfl

end Steps

theorem safeStep (wellFormed : program.WellFormed) (safe : m.Safe program size) :
    SafeStep program size m.step := by
  obtain ⟨p, ⟨pc⟩, count, s⟩ := m
  obtain ⟨same, size_eq, low, high, on, next⟩ := safe
  change p = program at same
  subst same
  obtain ⟨k, rfl⟩ := Int.eq_ofNat_of_zero_le low
  rw [← stepAs_false]
  rcases found : p[k]? with _ | i
  · rw [stepAs_end found]
    exact safeStep_finish wellFormed size_eq low high on
  obtain ⟨⟨_, size_kept, traps⟩, _⟩ := next i (current?_amid.trans found)
  obtain ⟨inside, _⟩ := Array.getElem?_eq_some_iff.mp found
  have on' := Instruction.onTape_exec on i
  rw [stepAs_amid found, Instruction.execAs_false]
  rcases act : i.exec s with ⟨s', trap | control⟩ <;> simp only [act] at size_kept on' traps
  · obtain ⟨op, failure, either, rfl⟩ := traps trap rfl
    refine ⟨safe_of_onTape wellFormed (size_kept.trans size_eq) low high on', ?_⟩
    rintro _ ⟨⟩
    exact .inr ⟨_, rfl, either⟩
  have sized := size_kept.trans size_eq
  -- without a jump the bounds are those of the instruction itself
  cases control with
  | next => exact safeStep_of_goesOn wellFormed sized (by simp; omega) (by simp; omega) on'
  | again => exact safeStep_of_goesOn wellFormed sized low high on'
  | jump offset =>
      obtain ⟨low, high⟩ := wellFormed.jump_inside found on act
      exact safeStep_of_goesOn wellFormed sized low high on'
  | stop => exact safeStep_finish wellFormed sized low high on'

theorem follow_safe (wellFormed : program.WellFormed) (safe : m.Safe program size) (n : Nat) :
    SafeStep program size (follow step n m) := by
  have keeps : ∀ m, Safe program size m → (step m).1.Safe program size :=
    fun m safe => (safeStep wellFormed safe).1
  obtain ⟨kept, last⟩ := follow_keeps keeps n safe
  refine ⟨kept, ?_⟩
  intro outcome ended
  obtain ⟨m', safe', moved⟩ := last _ outcome (Prod.ext rfl ended)
  apply (safeStep wellFormed safe').2
  rw [moved]

/-! ## New machines -/

theorem configure_keeps {settings : List Setting} {m m' : Machine}
    (ok : configure settings m = (m', none)) :
    m'.program = m.program ∧ m'.pc = m.pc ∧ m'.tape.ptr = m.tape.ptr ∧
      m'.state.log = m.state.log := by
  induction settings generalizing m with
  | nil =>
      cases ok
      exact ⟨rfl, rfl, rfl, rfl⟩
  | cons s rest ih =>
      rw [configure] at ok
      split at ok
      · cases ok
      · next set =>
          obtain ⟨program, pc, ptr, log⟩ := ih ok
          rw [program, pc, ptr, log]
          cases s with
          | tapeSize size =>
              rw [Machine.set] at set
              split at set
              · cases set
              · cases set
                exact ⟨rfl, rfl, rfl, rfl⟩
          | input r =>
              cases set
              exact ⟨rfl, rfl, rfl, rfl⟩
          | output w =>
              cases set
              exact ⟨rfl, rfl, rfl, rfl⟩

theorem new_onTape {settings : List Setting} (made : new program settings = .ok m) :
    m.tape.OnTape := by
  unfold new at made
  split at made
  · cases made
  · next ok =>
      cases made
      have home : m.tape.ptr = 0 := (configure_keeps ok).2.2.1
      have pos : 0 < m.tape.size := m.tape.size_pos
      rw [Tape.OnTape, Tape.InRange, home]
      exact ⟨by decide, by simpa using pos⟩

theorem new_safe {settings : List Setting} (wellFormed : program.WellFormed)
    (made : new program settings = .ok m) :
    Safe program m.tape.size { m with count := 0 } := by
  have on := new_onTape made
  unfold new at made
  split at made
  · cases made
  · next ok =>
      cases made
      obtain ⟨same, start, _⟩ := configure_keeps ok
      obtain ⟨p, pc, count, s⟩ := m
      cases same
      cases start
      exact safe_of_onTape wellFormed rfl (Int.le_refl 0) (Int.natCast_nonneg _) on

end Machine

/-- A new machine runs the program of a block safely: on its way, the program
    counter, the pointer and everything touched stay in range, and only the input
    or the output can make the run fail. -/
theorem Block.lowered_runs_safely {how : Lowering} {b : Block} {l : Lowered}
    {settings : List Setting} {m : Machine} (ok : b.lower how = .ok l)
    (made : Machine.new l.code settings = .ok m) :
    (∀ n, (follow Machine.step n { m with count := 0 }).1.Safe l.code m.tape.size) ∧
    ∀ limit last outcome, m.run limit = some (last, outcome) →
      last.Safe l.code m.tape.size ∧ outcome.BlamesChannels := by
  obtain ⟨c, linked, _⟩ := lower_spells ok
  have wellFormed := Program.WellLinked.wellFormed ⟨c, linked⟩ (lower_proper ok)
  have safe := Machine.follow_safe wellFormed (Machine.new_safe wellFormed made)
  refine ⟨fun n => (safe n).1, ?_⟩
  intro limit last outcome run
  rw [Machine.run, Machine.resume_eq_some_iff] at run
  have ended := safe limit
  rw [run] at ended
  exact ⟨ended.1, ended.2 outcome rfl⟩

/-- `<+[.]` -/
def Block.beacon : Block :=
  .command .left (.command .inc (.loop (.command .output .empty) (.command .halt .empty)))

/-- An output that takes one byte. -/
def Writer.narrow : Writer where
  onWrite n := if n = 0 then .accept else .refuse 0 "full"

theorem Block.lowered_runs_safely_beacon : ∃ l m last e, Block.beacon.lower {} = .ok l ∧
    l.code = #[.left 1, .add 1, .jez 2, .write, .jnz 2, .halt] ∧
    Machine.new l.code [.tapeSize 2, .output (some .narrow)] = .ok m ∧
    m.run 10 = some (last, .error (.io e)) ∧ e.op = .write ∧ last.tape.ptr = 1 ∧
    last.Safe l.code 2 := by
  have code : (Block.beacon.lower {}).map (·.code) =
      .ok #[.left 1, .add 1, .jez 2, .write, .jnz 2, .halt] := by decide +kernel
  obtain ⟨tallies, ok⟩ := Lowered.exists_of_code code
  have made : Machine.new #[.left 1, .add 1, .jez 2, .write, .jnz 2, .halt]
      [.tapeSize 2, .output (some .narrow)] = .ok ⟨#[.left 1, .add 1, .jez 2, .write, .jnz 2, .halt],
        0, 0, .blank 2 (by decide) (by decide), { output := some .narrow }⟩ := rfl
  have run : (Machine.run 10 ⟨#[.left 1, .add 1, .jez 2, .write, .jnz 2, .halt], 0, 0,
      .blank 2 (by decide) (by decide), { output := some .narrow }⟩).map
        (fun x => (x.1.tape.ptr, x.2)) =
      some (1, .error (.io ⟨.write, 3, ⟨["write failed"], "full"⟩⟩)) := by decide +kernel
  obtain ⟨⟨last, _⟩, run, same⟩ := Option.map_eq_some_iff.mp run
  obtain ⟨here, rfl⟩ := Prod.mk.inj same
  exact ⟨_, _, last, _, ok, rfl, made, run, rfl, here, ((lowered_runs_safely ok made).2 10 last _ run).1⟩

end TapeLang
