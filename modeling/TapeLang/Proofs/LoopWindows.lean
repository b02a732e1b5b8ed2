import TapeLang.Proofs.Folding

/-! # Loops and the instructions that stand for them

A loop without inner jumps goes around while the current cell is not zero. What
its rounds do to the tape is one function, so where it leads is a matter of tapes
alone: `Tape.While`. Searching and diffusing go around in the same way. Clearing
loops always end, and moving loops end unless they move a cell onto itself.
-/

namespace TapeLang

/-- Rounds while the current cell is not zero lead from one tape to another. -/
inductive Tape.While (round : Tape → Tape) : Tape → Tape → Prop where
  | last {t : Tape} (zero : t.cell = 0) : While round t t
  | more {t u : Tape} (nonzero : t.cell ≠ 0) (later : While round (round t) u) : While round t u

/-- After so many steps the machine comes to index `stop` for the first time, in
    the given state. -/
inductive Machine.Arrives (stop : Nat) : Nat → Machine → State → Prop where
  | here {m : Machine} (there : m.pc = ⟨stop⟩) : Arrives stop 0 m m.state
  | step {n : Nat} {m m' : Machine} {s : State} (away : m.pc ≠ ⟨stop⟩)
      (moved : m.step = (m', none)) (later : Arrives stop n m' s) : Arrives stop (n + 1) m s

/-- Control that starts at the first instruction of `part`, between other
    instructions of a program, comes to the instruction behind it. -/
def Crosses (before after part : List Instruction) (s s' : State) : Prop :=
  ∃ n, Machine.Arrives (before.length + part.length) n
    (Machine.amid (before ++ (part ++ after)).toArray before.length 0 s) s'

/-! ## Rounds on a tape -/

namespace Tape

variable {round other : Tape → Tape} {t u : Tape}

theorem While.congr (keeps : ∀ t : Tape, t.OnTape → (round t).OnTape)
    (same : ∀ t : Tape, t.OnTape → round t = other t) (on : t.OnTape)
    (leads : While round t u) : While other t u := by
  induction leads with
  | last zero => exact .last zero
  | more nonzero _ ih =>
      apply While.more nonzero
      rw [← same _ on]
      exact ih (keeps _ on)

theorem while_iff_of_same (keeps : ∀ t : Tape, t.OnTape → (round t).OnTape)
    (same : ∀ t : Tape, t.OnTape → round t = other t) (on : t.OnTape) :
    While round t u ↔ While other t u :=
  ⟨While.congr keeps same on, While.congr (fun t on => same t on ▸ keeps t on)
    (fun t on => (same t on).symm) on⟩

/-- What each round leaves as it is, and what the last tape is, is where the rounds lead. -/
theorem While.eq_total (total : Tape → Tape) (keeps : ∀ t : Tape, t.OnTape → (round t).OnTape)
    (last : ∀ t : Tape, t.OnTape → t.cell = 0 → total t = t)
    (kept : ∀ t : Tape, t.OnTape → total (round t) = total t) (on : t.OnTape)
    (leads : While round t u) : u = total t := by
  induction leads with
  | last zero => exact (last _ on zero).symm
  | more _ _ ih => exact (ih (keeps _ on)).trans (kept _ on)

/-- Rounds end that make a number smaller, as long as the tape is a good one. -/
theorem exists_while (keeps : ∀ t : Tape, t.OnTape → (round t).OnTape) (good : Tape → Prop)
    (goes : ∀ t : Tape, good t → good (round t)) (left : Tape → Nat)
    (fewer : ∀ t : Tape, t.OnTape → good t → t.cell ≠ 0 → left (round t) < left t)
    (on : t.OnTape) (start : good t) : ∃ u, While round t u := by
  induction more : left t using Nat.strongRecOn generalizing t with
  | ind k ih =>
      by_cases zero : t.cell = 0
      · exact ⟨t, .last zero⟩
      · have less := fewer t on start zero
        rw [more] at less
        obtain ⟨u, leads⟩ := ih (left (round t)) less (keeps t on) (goes t start) rfl
        exact ⟨u, .more zero leads⟩

theorem not_while_of_still (round : Tape → Tape) (still : round t = t) (nonzero : t.cell ≠ 0) : ¬ While round t u := by
  intro leads
  induction leads with
  | last zero => exact nonzero zero
  | more _ _ ih =>
      rw [still] at ih
      exact ih still nonzero

/-- Rounds that only change the current cell, and end, clear it. -/
theorem while_setCell (keeps : ∀ t : Tape, t.OnTape → (round t).OnTape)
    (only : ∀ t : Tape, (round t).setCell 0 = t.setCell 0) (left : Tape → Nat)
    (fewer : ∀ t : Tape, t.OnTape → t.cell ≠ 0 → left (round t) < left t) (on : t.OnTape) :
    While round t (t.setCell 0) := by
  obtain ⟨u, leads⟩ := exists_while keeps (fun _ => True) (fun _ _ => trivial) left
    (fun t on _ => fewer t on) on trivial
  have last : ∀ t : Tape, t.OnTape → t.cell = 0 → t.setCell 0 = t := by
    intro t on zero
    rw [← zero, setCell_cell on]
  have same := leads.eq_total (·.setCell 0) keeps last (fun t _ => only t) on
  rwa [same] at leads

/-- Trading with the cell at distance `d` ends unless that is the current cell,
    and has then poured the one into the other. -/
theorem while_trade_iff (d : Int) (on : t.OnTape) :
    While (fun t => t.trade (t.away d)) t u ↔
      (t.cell = 0 ∨ ¬ (t.size : Int) ∣ d) ∧ u = t.pour t.ptr (t.away d) := by
  have keeps : ∀ t : Tape, t.OnTape → (t.trade (t.away d)).OnTape := by simp
  have total : ∀ {t u : Tape}, t.OnTape → While (fun t => t.trade (t.away d)) t u →
      u = t.pour t.ptr (t.away d) := by
    intro t u on leads
    exact leads.eq_total (fun t => t.pour t.ptr (t.away d)) keeps
      (fun t on zero => pour_of_cell_eq_zero on (inRange_away d t) zero)
      (fun t on => pour_away_trade d on) on
  constructor
  · intro leads
    refine ⟨?_, total on leads⟩
    by_contra stuck
    rw [not_or, not_not] at stuck
    obtain ⟨nonzero, turns⟩ := stuck
    have still : t.trade (t.away d) = t := by
      rw [(away_eq_ptr_iff on d).mpr turns, trade_ptr on]
    exact not_while_of_still (fun t => t.trade (t.away d)) still nonzero leads
  · rintro ⟨ends, rfl⟩
    by_cases zero : t.cell = 0
    · rw [pour_of_cell_eq_zero on (inRange_away d t) zero]
      exact .last zero
    · have short := ends.resolve_left zero
      obtain ⟨u, leads⟩ := exists_while keeps (fun t => ¬ (t.size : Int) ∣ d) (by simp)
        (fun t => t.cell.toNat) (by
          intro t on short nonzero
          have apart : t.away d ≠ t.ptr := fun same => short ((away_eq_ptr_iff on d).mp same)
          rw [cell_trade on (inRange_away d t) apart]
          exact toNat_take_lt nonzero) on short
      rwa [← total on leads]

end Tape

/-- What ends at a zero cell, and elsewhere takes steps for a round and goes on,
    leads where the rounds lead. -/
theorem exists_iff_while {γ : Type} (takes : γ → State → Nat → Prop) (next : γ → γ)
    {round : Tape → Tape} {d : Nat} {s' : State}
    (keeps : ∀ t : Tape, t.OnTape → (round t).OnTape)
    (ends : ∀ x s n, s.tape.OnTape → s.tape.cell = 0 → (takes x s n ↔ n = 1 ∧ s = s'))
    (goes : ∀ x s n, s.tape.OnTape → s.tape.cell ≠ 0 →
      (takes x s n ↔ ∃ k, n = k + d + 1 ∧ takes (next x) (s.onTape round) k))
    (x : γ) {s : State} (on : s.tape.OnTape) :
    (∃ n, takes x s n) ↔ ∃ u, Tape.While round s.tape u ∧ s' = s.onTape fun _ => u := by
  constructor
  · -- each round takes steps, so fewer are left when it is over
    rintro ⟨n, taken⟩
    induction n using Nat.strongRecOn generalizing x s with
    | ind n ih =>
        by_cases zero : s.tape.cell = 0
        · obtain ⟨_, rfl⟩ := (ends x s n on zero).mp taken
          exact ⟨s.tape, .last zero, rfl⟩
        · obtain ⟨k, rfl, later⟩ := (goes x s n on zero).mp taken
          obtain ⟨u, leads, same⟩ := ih k (by omega) (next x) (keeps s.tape on) later
          exact ⟨u, .more zero leads, same⟩
  · rintro ⟨u, leads, same⟩
    generalize start : s.tape = t at leads
    induction leads generalizing x s with
    | last zero =>
        subst start
        exact ⟨1, (ends x s 1 on zero).mpr ⟨rfl, same.symm⟩⟩
    | more nonzero _ ih =>
        subst start
        obtain ⟨k, taken⟩ := ih (next x) (s := s.onTape round) (keeps s.tape on) same rfl
        exact ⟨_, (goes x s _ on nonzero).mpr ⟨k, rfl, taken⟩⟩

/-! ## Arrivals -/

namespace Machine

variable {stop n : Nat} {m m' : Machine} {s : State}

theorem arrives_of_there (there : m.pc = ⟨stop⟩) : Arrives stop n m s ↔ n = 0 ∧ m.state = s := by
  constructor
  · intro arrives
    cases arrives with
    | here => exact ⟨rfl, rfl⟩
    | step away => exact absurd there away
  · rintro ⟨rfl, rfl⟩
    exact .here there

theorem arrives_of_moved (away : m.pc ≠ ⟨stop⟩) (moved : m.step = (m', none)) :
    Arrives stop n m s ↔ ∃ k, n = k + 1 ∧ Arrives stop k m' s := by
  constructor
  · intro arrives
    cases arrives with
    | here there => exact absurd there away
    | step _ moved' later =>
        cases moved.symm.trans moved'
        exact ⟨_, rfl, later⟩
  · rintro ⟨k, rfl, later⟩
    exact .step away moved later

theorem step_amid {program : Program} {k : Nat} {i : Instruction} (found : program[k]? = some i)
    (n : Nat) (s : State) : (amid program k n s).step =
    match i.exec s with
    | (s', .error trap) => (amid program k n s', some (.error (trap.toError ⟨k⟩)))
    | (s', .ok .again) => (amid program k n s', none)
    | (s', .ok .next) => (amid program (k + 1) (n + 1) s', none)
    | (s', .ok (.jump offset)) => (⟨program, ⟨k + offset + 1⟩, n + 1, s'⟩, none)
    | (s', .ok .stop) => (amid program k (n + 1) s').finish := by
  have moved := stepAs_amid (f := false) (n := n) (s := s) found
  rwa [stepAs_false, Instruction.execAs_false] at moved

theorem amid_ne {program : Program} {k stop n : Nat} {s : State} (apart : k ≠ stop) :
    (amid program k n s).pc ≠ ⟨stop⟩ := by
  intro same
  have := congrArg Address.toInt same
  exact apart (Int.ofNat.inj this)

end Machine

/-! ## Straight instructions and loops around them -/

/-- One after the other, the instructions act on the tape alone. -/
inductive Straight : List Instruction → (Tape → Tape) → Prop where
  | nil : Straight [] fun t => t
  | cons {i : Instruction} {is : List Instruction} {g h : Tape → Tape}
      (acts : ∀ s, s.tape.OnTape → i.exec s = (s.onTape g, .ok .next)) (later : Straight is h) :
      Straight (i :: is) fun t => h (g t)

section Control

open Machine (amid Arrives arrives_of_there arrives_of_moved step_amid amid_ne)

variable {program : Program} {is : List Instruction} {i : Instruction} {g h : Tape → Tape}
  {rest : Code} {k pc stop n count : Nat} {s s' : State}

theorem Instruction.Acts.exec (acts : i.Acts g) (s : State) (on : s.tape.OnTape) :
    i.exec s = (s.onTape g, .ok .next) := by
  rw [← execAs_false]
  exact acts false s on

theorem onTape_of_acts (acts : ∀ s, s.tape.OnTape → i.exec s = (s.onTape g, .ok .next))
    (on : s.tape.OnTape) : (g s.tape).OnTape := by
  have kept := Instruction.onTape_exec on i
  rwa [acts s on] at kept

theorem Code.length_line (is : List Instruction) : (Code.line is .done).length = is.length := by
  induction is with
  | nil => rfl
  | cons i is ih => exact congrArg (· + 1) ih

theorem Straight.onTape (straight : Straight is g) {t : Tape} (on : t.OnTape) : (g t).OnTape := by
  induction straight generalizing t with
  | nil => exact on
  | cons acts _ ih =>
      exact ih (onTape_of_acts acts (s := ⟨t, {}⟩) on)

/-- Control passes straight instructions, and their effect is on the tape. -/
theorem Straight.arrives_iff (straight : Straight is g) (placed : Placed program (.line is .done) k)
    (beyond : k + is.length ≤ stop) (on : s.tape.OnTape) :
    Arrives stop n (amid program k count s) s' ↔ ∃ j, n = j + is.length ∧
      Arrives stop j (amid program (k + is.length) (count + is.length) (s.onTape g)) s' := by
  induction straight generalizing k n count s with
  | nil => simp [State.onTape]
  | @cons i is g h acts _ ih =>
      obtain ⟨found, _, later⟩ := placed.of_plain
      have moved : (amid program k count s).step =
          (amid program (k + 1) (count + 1) (s.onTape g), none) := by
        rw [step_amid found, acts s on]
      have kept : (s.onTape g).tape.OnTape := onTape_of_acts acts on
      rw [List.length_cons] at beyond
      rw [arrives_of_moved (amid_ne (by omega)) moved]
      simp only [ih later (by omega) kept]
      have place : k + 1 + is.length = k + (is.length + 1) := by omega
      have total : count + 1 + is.length = count + (is.length + 1) := by omega
      simp only [place, total, List.length_cons, State.onTape_onTape]
      constructor
      · rintro ⟨_, rfl, j, rfl, arrives⟩
        exact ⟨j, by omega, arrives⟩
      · rintro ⟨j, rfl, arrives⟩
        exact ⟨j + is.length, by omega, j, rfl, arrives⟩

section Loops

variable (straight : Straight is g) (placed : Placed program (.loop (.line is .done) rest) k)
  (entry : Code.Entry k (.loop (.line is .done) rest) pc) (on : s.tape.OnTape)

include placed entry on

theorem Placed.loop_step (count : Nat) : pc ≠ k + (is.length + 2) ∧ (amid program pc count s).step =
    (amid program (if s.tape.cell = 0 then k + (is.length + 2) else k + 1) (count + 1) s, none) := by
  have moved := placed.stepAs_test (f := false) (n := count) entry on
  rw [Machine.stepAs_false, Code.length_line] at moved
  refine ⟨?_, moved⟩
  cases entry with
  | front => omega
  | back =>
      rw [Code.length_line]
      omega

theorem Placed.loop_arrives_of_zero (zero : s.tape.cell = 0) :
    Arrives (k + (is.length + 2)) n (amid program pc count s) s' ↔ n = 1 ∧ s = s' := by
  obtain ⟨away, moved⟩ := placed.loop_step entry on count
  rw [if_pos zero] at moved
  rw [arrives_of_moved (amid_ne away) moved]
  simp [arrives_of_there]

include straight

/-- As long as the cell is not zero, control comes back to the end of the loop. -/
theorem Straight.loop_arrives_of_nonzero (nonzero : s.tape.cell ≠ 0) :
    Arrives (k + (is.length + 2)) n (amid program pc count s) s' ↔
      ∃ j, n = j + is.length + 1 ∧ Arrives (k + (is.length + 2)) j
        (amid program (k + (is.length + 1)) (count + 1 + is.length) (s.onTape g)) s' := by
  obtain ⟨away, moved⟩ := placed.loop_step entry on count
  rw [if_neg nonzero] at moved
  have beyond : k + 1 + is.length ≤ k + (is.length + 2) := by omega
  have place : k + 1 + is.length = k + (is.length + 1) := by omega
  rw [arrives_of_moved (amid_ne away) moved]
  simp only [straight.arrives_iff placed.inside beyond on, place]
  constructor
  · rintro ⟨_, rfl, j, rfl, arrives⟩
    exact ⟨j, rfl, arrives⟩
  · rintro ⟨j, rfl, arrives⟩
    exact ⟨_, rfl, j, rfl, arrives⟩

/-- A loop leads where its rounds lead. -/
theorem Straight.loop_arrives_iff :
    (∃ n, Arrives (k + (is.length + 2)) n (amid program pc count s) s') ↔
      ∃ u, Tape.While g s.tape u ∧ s' = s.onTape fun _ => u := by
  have back : Code.Entry k (.loop (.line is .done) rest) (k + (is.length + 1)) := by
    rw [← Code.length_line is]
    exact .back
  exact exists_iff_while (γ := { pc // Code.Entry k (.loop (.line is .done) rest) pc } × Nat)
    (fun x s n => Arrives (k + (is.length + 2)) n (amid program x.1 x.2 s) s')
    (fun x => (⟨_, back⟩, x.2 + 1 + is.length)) (fun _ => straight.onTape)
    (fun x _ _ on zero => placed.loop_arrives_of_zero x.1.2 on zero)
    (fun x _ _ on nonzero => straight.loop_arrives_of_nonzero placed x.1.2 on nonzero)
    (⟨pc, entry⟩, count) on

end Loops

/-- An instruction that goes around leads where its rounds lead. -/
theorem Instruction.arrives_iff_of_rounds (found : program[k]? = some i)
    (keeps : ∀ t : Tape, t.OnTape → (g t).OnTape)
    (rounds : ∀ s, s.tape.OnTape → i.exec s =
      if s.tape.cell = 0 then (s, .ok .next) else (s.onTape g, .ok .again)) (on : s.tape.OnTape) :
    (∃ n, Arrives (k + 1) n (amid program k count s) s') ↔
      ∃ u, Tape.While g s.tape u ∧ s' = s.onTape fun _ => u := by
  have away : ∀ count s, (amid program k count s).pc ≠ ⟨(k + 1 : Nat)⟩ :=
    fun _ _ => amid_ne (Nat.ne_of_lt (Nat.lt_succ_self k))
  refine exists_iff_while (d := 0) (fun x s n => Arrives (k + 1) n (amid program k x s) s') id
    keeps ?_ ?_ count on
  · intro x s n on zero
    have moved := step_amid found x s
    rw [rounds s on, if_pos zero] at moved
    rw [arrives_of_moved (away x s) moved]
    simp [arrives_of_there]
  · intro x s n on nonzero
    have moved := step_amid found x s
    rw [rounds s on, if_neg nonzero] at moved
    exact arrives_of_moved (away x s) moved

theorem Instruction.arrives_iff_of_acts (found : program[k]? = some i)
    (acts : ∀ s, s.tape.OnTape → i.exec s = (s.onTape g, .ok .next)) (on : s.tape.OnTape) :
    (∃ n, Arrives (k + 1) n (amid program k count s) s') ↔ s' = s.onTape g := by
  have moved := step_amid found count s
  rw [acts s on] at moved
  simp only [arrives_of_moved (amid_ne (Nat.ne_of_lt (Nat.lt_succ_self k))) moved]
  simp [arrives_of_there, eq_comm]

end Control

/-! ## Windows -/

namespace Peephole

variable {before after window is : List Instruction} {i o e : Instruction} {g : Tape → Tape}
  {s s' : State} {body : Windows}

theorem crosses_loop_iff (opens : o.op = .jez) (closes : e.op = .jnz)
    (plain : ∀ j ∈ is, j.IsPlain) (straight : Straight is g)
    (linked : ∀ j ∈ o :: (is ++ [e]), ¬ j.IsPlain → j.arg.toNat = (o :: (is ++ [e])).length - 1)
    (on : s.tape.OnTape) : Crosses before after (o :: (is ++ [e])) s s' ↔
      ∃ u, Tape.While g s.tape u ∧ s' = s.onTape fun _ => u := by
  have whole : (o :: (is ++ [e])).length = is.length + 2 := by simp
  have out : o.arg.toNat = is.length + 1 :=
    (linked o (by simp) (by simp [Instruction.IsPlain, opens])).trans (by simp)
  have back : e.arg.toNat = is.length + 1 :=
    (linked e (by simp) (by simp [Instruction.IsPlain, closes])).trans (by simp)
  have inside : Linked (.line is .done) is := by
    simpa using Layout.line (q := []) plain .done
  have layout : Linked (.loop (.line is .done) .done) (o :: (is ++ [e])) := by
    apply Layout.loop opens inside closes .done
    · rwa [Code.length_line]
    · rwa [Code.length_line]
  have placed : Placed (before ++ (o :: (is ++ [e]) ++ after)).toArray _ before.length :=
    layout.placed (v := after) (by simp)
  rw [Crosses, whole]
  exact straight.loop_arrives_iff placed .front on

theorem found_single : (before ++ ([i] ++ after)).toArray[before.length]? = some i := by
  simp

theorem crosses_rounds_iff (keeps : ∀ t : Tape, t.OnTape → (g t).OnTape)
    (rounds : ∀ s, s.tape.OnTape → i.exec s =
      if s.tape.cell = 0 then (s, .ok .next) else (s.onTape g, .ok .again)) (on : s.tape.OnTape) :
    Crosses before after [i] s s' ↔ ∃ u, Tape.While g s.tape u ∧ s' = s.onTape fun _ => u :=
  Instruction.arrives_iff_of_rounds found_single keeps rounds on

theorem crosses_acts_iff (acts : ∀ s, s.tape.OnTape → i.exec s = (s.onTape g, .ok .next))
    (on : s.tape.OnTape) : Crosses before after [i] s s' ↔ s' = s.onTape g :=
  Instruction.arrives_iff_of_acts found_single acts on

theorem ClearBody.straight (clears : ClearBody is i) : ∃ g, Straight is g ∧
    ∀ t : Tape, t.OnTape → Tape.While g t (t.setCell 0) := by
  have one : ∀ {j g}, Instruction.Acts j g → Straight [j] g :=
    fun acts => .cons (h := fun t => t) acts.exec .nil
  have keeps : ∀ v : UInt8, ∀ t : Tape, t.OnTape → (t.bump v).OnTape := by simp
  cases clears with
  | up =>
      refine ⟨_, one (Instruction.acts_add 1), fun t => ?_⟩
      apply Tape.while_setCell (keeps 1) (fun _ => Tape.setCell_bump) fun t => (-t.cell).toNat
      intro t on nonzero
      rw [Tape.cell_bump on]
      exact toNat_neg_give_lt nonzero
  | down =>
      refine ⟨_, one (Instruction.acts_add 255), fun t => ?_⟩
      apply Tape.while_setCell (keeps 255) (fun _ => Tape.setCell_bump) fun t => t.cell.toNat
      intro t on nonzero
      rw [Tape.cell_bump on]
      exact toNat_take_lt nonzero
  | clear =>
      refine ⟨_, one Instruction.acts_zero, fun t => ?_⟩
      apply Tape.while_setCell (by simp) (fun _ => Tape.setCell_setCell) fun t => t.cell.toNat
      intro t on nonzero
      rw [Tape.cell_setCell on]
      exact Nat.pos_of_ne_zero fun h => nonzero (UInt8.toNat_inj.mp h)

/-- The body of a loop is a round of the instruction it is fused to. -/
def RoundOf (is : List Instruction) (i : Instruction) : Prop :=
  ∃ g, Straight is g ∧ ∀ s, s.tape.OnTape → i.exec s =
    if s.tape.cell = 0 then (s, .ok .next) else (s.onTape g, .ok .again)

theorem SearchBody.roundOf (searches : SearchBody is i) : RoundOf is i := by
  cases searches with
  | right =>
      exact ⟨_, .cons (Instruction.acts_right _ _).exec .nil,
        fun _ on => Instruction.exec_searchr _ 0 on⟩
  | left =>
      exact ⟨_, .cons (Instruction.acts_left _ _).exec .nil,
        fun _ on => Instruction.exec_searchl _ 0 on⟩

theorem DiffuseBody.roundOf (diffuses : DiffuseBody is i) : RoundOf is i := by
  obtain ⟨sum⟩ := diffuses
  rename_i x n q a b c
  have straight := Straight.cons (Instruction.acts_right x a).exec
    (.cons (fun s on => Instruction.exec_amover n b on) (.cons (Instruction.acts_left q c).exec .nil))
  refine ⟨_, straight, ?_⟩
  intro s on
  rw [funext (Tape.pour_away x.toNat n.toNat q.toNat sum)]
  exact Instruction.exec_mandel x n on

/-- A loop that trades with the cell at distance `d`. -/
structure TradesLike (is : List Instruction) (i : Instruction) (d : Int) : Prop where
  straight : ∃ g, Straight is g ∧ ∀ t : Tape, t.OnTape → g t = t.trade (t.away d)
  pours : i.PoursTo d
  turns (size : Nat) : (size : Int) ∣ d ↔ size ∣ i.arg.toNat

theorem Trip.exists_distance {there back : Instruction} (trip : Trip there back i) :
    ∃ d : Int, there.Acts (·.shift d) ∧ back.Acts (·.shift (-d)) ∧ i.PoursTo d ∧
      ∀ size : Nat, (size : Int) ∣ d ↔ size ∣ i.arg.toNat := by
  cases trip with
  | @right n a b =>
      exact ⟨n.toNat, Instruction.acts_right n a, Instruction.acts_left n b,
        Instruction.poursTo_amover n, fun _ => Int.natCast_dvd_natCast⟩
  | @left n a b =>
      refine ⟨-n.toNat, Instruction.acts_left n a, ?_, Instruction.poursTo_amovel n, ?_⟩
      · rw [Int.neg_neg]
        exact Instruction.acts_right n b
      · intro size
        rw [Int.dvd_neg]
        exact Int.natCast_dvd_natCast

theorem TakeGive.trades (takes : TakeGive is i) : ∃ d, TradesLike is i d := by
  obtain ⟨trip⟩ := takes
  obtain ⟨d, there, back, pours, turns⟩ := trip.exists_distance
  have straight := Straight.cons (Instruction.acts_add 255).exec (.cons there.exec
    (.cons (Instruction.acts_add 1).exec (.cons back.exec .nil)))
  exact ⟨d, ⟨_, straight, fun t on => Tape.take_then_give on d⟩, pours, turns⟩

theorem GiveTake.trades (gives : GiveTake is i) : ∃ d, TradesLike is i d := by
  obtain ⟨trip⟩ := gives
  obtain ⟨d, there, back, pours, turns⟩ := trip.exists_distance
  have straight := Straight.cons there.exec (.cons (Instruction.acts_add 1).exec
    (.cons back.exec (.cons (Instruction.acts_add 255).exec .nil)))
  exact ⟨d, ⟨_, straight, fun t on => Tape.give_then_take on d⟩, pours, turns⟩

theorem exists_looped {rule : Rule} (fuses : rule.Fuses (Looped body))
    (fused : rule.fuse? (window ++ after) = some (i, after)) : Looped body window i := by
  obtain ⟨_, looped, same⟩ := (fuses _ _ _).mp fused
  rwa [List.append_cancel_right same]

section Loops

variable (linked : ∀ j ∈ window, ¬ j.IsPlain → j.arg.toNat = window.length - 1)
  (on : s.tape.OnTape)

include linked on

theorem clear_crosses (looped : Looped ClearBody window i) :
    ∃ s', Crosses before after window s s' ∧ Crosses before after [.zero] s s' := by
  obtain ⟨opens, clears, closes⟩ := looped
  obtain ⟨g, straight, leads⟩ := clears.straight
  have plain := fun j member => clearBody_plain _ _ clears j (List.mem_cons_of_mem _ member)
  refine ⟨s.onTape (·.setCell 0), ?_, ?_⟩
  · rw [crosses_loop_iff opens closes plain straight linked on]
    exact ⟨_, leads s.tape on, State.onTape_congr rfl⟩
  · exact (crosses_acts_iff (fun _ on => Instruction.exec_zero 0 0 on) on).mpr rfl

theorem rounds_cross_iff (plainBody : Plain body) (roundOf : ∀ {is i}, body is i → RoundOf is i)
    (looped : Looped body window i) (s' : State) :
    Crosses before after window s s' ↔ Crosses before after [i] s s' := by
  obtain ⟨opens, inside, closes⟩ := looped
  obtain ⟨g, straight, rounds⟩ := roundOf inside
  have plain := fun j member => plainBody _ _ inside j (List.mem_cons_of_mem _ member)
  rw [crosses_loop_iff opens closes plain straight linked on,
    crosses_rounds_iff (fun _ => straight.onTape) rounds on]

theorem move_crosses (plainBody : Plain body) (trades : ∀ {is i}, body is i → ∃ d, TradesLike is i d)
    (looped : Looped body window i) : ∃ poured, ∀ s',
      (Crosses before after [i] s s' ↔ s' = poured) ∧
      (Crosses before after window s s' ↔
        (s.tape.cell = 0 ∨ ¬ s.tape.size ∣ i.arg.toNat) ∧ s' = poured) := by
  obtain ⟨opens, inside, closes⟩ := looped
  obtain ⟨d, ⟨g, straight, same⟩, pours, turns⟩ := trades inside
  have plain := fun j member => plainBody _ _ inside j (List.mem_cons_of_mem _ member)
  refine ⟨_, fun s' => ⟨crosses_acts_iff (fun _ on => pours.exec on) on, ?_⟩⟩
  rw [crosses_loop_iff opens closes plain straight linked on, ← turns]
  simp only [Tape.while_iff_of_same (fun _ => straight.onTape) same on, Tape.while_trade_iff d on]
  constructor
  · rintro ⟨_, ⟨ends, rfl⟩, rfl⟩
    exact ⟨ends, State.onTape_congr rfl⟩
  · rintro ⟨ends, rfl⟩
    exact ⟨_, ⟨ends, rfl⟩, State.onTape_congr rfl⟩

end Loops

end Peephole

/-- What the windows of the loop rules mean, between any other instructions, if their
    jumps lead to each other. Clearing loops lead where the clear leads. Searching and
    diffusing loops lead where their fusions lead, and nowhere if these lead nowhere.
    Moving loops lead somewhere if there is nothing to move or another cell to move it
    to, and then where their fusions lead. -/
theorem Peephole.fused_loops_cross_alike {before after window : List Instruction} {i : Instruction}
    {s : State} (linked : ∀ j ∈ window, ¬ j.IsPlain → j.arg.toNat = window.length - 1)
    (on : s.tape.OnTape) :
    (clearLoop.fuse? (window ++ after) = some (i, after) →
      ∃ s', Crosses before after window s s' ∧ Crosses before after [.zero] s s') ∧
    (searchLoop.fuse? (window ++ after) = some (i, after) ∨
        mandelLoop.fuse? (window ++ after) = some (i, after) →
      ∀ s', Crosses before after window s s' ↔ Crosses before after [i] s s') ∧
    (moveLoop.fuse? (window ++ after) = some (i, after) ∨
        moveLoopSwapped.fuse? (window ++ after) = some (i, after) →
      ((∃ s', Crosses before after window s s') ↔
        s.tape.cell = 0 ∨ ¬ s.tape.size ∣ i.arg.toNat) ∧
      ∀ s', Crosses before after window s s' → Crosses before after [i] s s') := by
  refine ⟨fun fused => clear_crosses linked on (exists_looped clearLoop_fuses fused), ?_, ?_⟩
  · rintro (fused | fused) s'
    · exact rounds_cross_iff linked on searchBody_plain SearchBody.roundOf
        (exists_looped searchLoop_fuses fused) s'
    · exact rounds_cross_iff linked on diffuseBody_plain DiffuseBody.roundOf
        (exists_looped mandelLoop_fuses fused) s'
  · intro fused
    obtain ⟨poured, crosses⟩ : ∃ poured, ∀ s', (Crosses before after [i] s s' ↔ s' = poured) ∧
        (Crosses before after window s s' ↔
          (s.tape.cell = 0 ∨ ¬ s.tape.size ∣ i.arg.toNat) ∧ s' = poured) := by
      rcases fused with fused | fused
      · exact move_crosses linked on takeGive_plain TakeGive.trades
          (exists_looped moveLoop_fuses fused)
      · exact move_crosses linked on giveTake_plain GiveTake.trades
          (exists_looped moveLoopSwapped_fuses fused)
    refine ⟨?_, fun s' crossed => (crosses s').1.mpr ((crosses s').2.mp crossed).2⟩
    constructor
    · rintro ⟨s', crossed⟩
      exact ((crosses s').2.mp crossed).1
    · exact fun ends => ⟨poured, (crosses poured).2.mpr ⟨ends, rfl⟩⟩

/-- A loop that moves the current cell to the one two to the right, which is the cell
    itself on a tape of two cells. -/
def Peephole.farMove : List Instruction :=
  [.jez 5, .right 2, .add 1, .left 2, .add 255, .jnz 5]

/-- A state with nothing to read and nothing to write to. -/
def State.ofCells (cells : Array UInt8) (pos : 0 < cells.size := by decide)
    (le : cells.size ≤ Tape.maxSize := by decide) : State :=
  ⟨⟨cells, 0, pos, le⟩, {}⟩

theorem Peephole.fused_loops_cross_alike_farMove :
    (¬ ∃ s', Crosses [.add 3] [.halt] farMove (.ofCells #[3, 0]) s') ∧
    (∃ s', Crosses [.add 3] [.halt] farMove (.ofCells #[3, 0, 9]) s' ∧
      Crosses [.add 3] [.halt] [.amover 2] (.ofCells #[3, 0, 9]) s') ∧
    (∃ s', Crosses [] [] [.jez 2, .add 1, .jnz 2] (.ofCells #[3]) s' ∧
      Crosses [] [] [.zero] (.ofCells #[3]) s') ∧
    ∀ s', Crosses [] [.halt] [.jez 4, .right 1, .amover 1, .left 2, .jnz 4] (.ofCells #[1, 5]) s' ↔
      Crosses [] [.halt] [.mandel 1 1] (.ofCells #[1, 5]) s' := by
  have linked : ∀ j ∈ farMove, ¬ j.IsPlain → j.arg.toNat = farMove.length - 1 := by decide
  have moves := fun s on => (@fused_loops_cross_alike [.add 3] [.halt] farMove (.amover 2) s
    linked on).2.2 (.inr rfl)
  refine ⟨?_, ?_, ?_, ?_⟩
  · rw [(moves _ (by decide)).1]
    decide
  · obtain ⟨ends, alike⟩ := moves (.ofCells #[3, 0, 9]) (by decide)
    obtain ⟨s', crossed⟩ := ends.mpr (by decide)
    exact ⟨s', crossed, alike s' crossed⟩
  · exact (fused_loops_cross_alike (i := .zero) (by decide) (by decide)).1 rfl
  · exact (fused_loops_cross_alike (by decide) (by decide)).2.1 (.inr rfl)

end TapeLang
