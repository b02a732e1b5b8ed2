import TapeLang.Block.Walk
import TapeLang.Proofs.MachineRuns

/-! # Walks as courses

Every command is an instruction that does the same, so a block is code, node by
node. A walk through a block follows the courses of that code, and every course
is walked.
-/

namespace TapeLang

/-- The instruction that does what a command does. -/
def Command.instruction : Command → Instruction
  | .right => .right 1
  | .left => .left 1
  | .inc => .add 1
  | .dec => .add 255
  | .output => .write
  | .input => .read
  | .halt => .halt
  | .unknown _ => .right 0

/-- The code of a block, node by node. -/
def Block.code : Block → Code
  | .empty => .done
  | .command c rest => .plain c.instruction rest.code
  | .loop body rest => .loop body.code rest.code

section Shape

variable {b : Block} {i : Instruction} {c r : Code}

theorem Block.of_code_done (h : b.code = .done) : b = .empty := by
  cases b with
  | empty => rfl
  | command | loop => cases h

theorem Block.of_code_plain (h : b.code = .plain i r) :
    ∃ c rest, b = .command c rest ∧ i = c.instruction ∧ r = rest.code := by
  cases b with
  | empty | loop => cases h
  | command c rest =>
      cases h
      exact ⟨c, rest, rfl, rfl, rfl⟩

theorem Block.of_code_loop (h : b.code = .loop c r) :
    ∃ body rest, b = .loop body rest ∧ c = body.code ∧ r = rest.code := by
  cases b with
  | empty | command => cases h
  | loop body rest =>
      cases h
      exact ⟨body, rest, rfl, rfl, rfl⟩

end Shape

namespace Command

variable {s : State}

theorem instruction_harmless (c : Command) : c.instruction.Harmless := by
  cases c <;> exact ⟨nofun, nofun, nofun⟩

theorem exec_instruction (f : Bool) (c : Command) (on : s.tape.OnTape) :
    c.instruction.execAs f s = c.exec s := by
  rw [c.instruction_harmless.execAs]
  cases c with
  | right | left | output | input | halt => rfl
  | inc => exact Instruction.exec_add 1 0 on
  | dec => exact Instruction.exec_add 255 0 on
  | unknown n =>
      rw [exec, instruction, Instruction.right, Instruction.exec_right 0 0 on]
      exact congrArg (·, _) (State.onTape_eq_self (f := (·.shift 0)) (Tape.shift_zero on))

theorem leads_exec (c : Command) (s : State) :
    State.Leads (fun control => control = .next ∨ control = .stop) (c.exec s) := by
  cases c with
  | right | left | inc | dec | unknown => exact State.leads_ok (.inl rfl)
  | halt => exact State.leads_ok (.inr rfl)
  | output => exact fun control ok => .inl (State.leads_write s control ok)
  | input => exact fun control ok => .inl (State.leads_read s control ok)

end Command

namespace Walk

variable {c : Command} {body rest : Block} {after : List Block} {s s' : State} {t : Trap}

theorem finish_eq (w : Walk) :
    w.finish = (⟨w.block, w.after, w.state.finish.1⟩, some w.state.finish.2) := by
  obtain ⟨block, after, ⟨tape, channels⟩⟩ := w
  rcases flushed : channels.flush with ⟨_, _ | _⟩ <;> simp only [finish, State.finish, flushed]

theorem step_next (act : c.exec s = (s', .ok .next)) :
    step ⟨.command c rest, after, s⟩ = (⟨rest, after, s'⟩, none) := by
  simp only [step, act]

theorem step_trap (act : c.exec s = (s', .error t)) :
    step ⟨.command c rest, after, s⟩ = (⟨.command c rest, after, s'⟩, some (.error t)) := by
  simp only [step, act]

theorem step_stop (act : c.exec s = (s', .ok .stop)) :
    step ⟨.command c rest, after, s⟩ =
      (⟨.command c rest, after, s'.finish.1⟩, some s'.finish.2) := by
  simp only [step, act, finish_eq]

theorem step_skip (zero : s.tape.cell = 0) :
    step ⟨.loop body rest, after, s⟩ = (⟨rest, after, s⟩, none) := by
  simp only [step, if_pos zero]

theorem step_enter (nonzero : s.tape.cell ≠ 0) :
    step ⟨.loop body rest, after, s⟩ = (⟨body, .loop body rest :: after, s⟩, none) := by
  simp only [step, if_neg nonzero]

theorem step_back {outer : Block} :
    step ⟨.empty, outer :: after, s⟩ = (⟨outer, after, s⟩, none) := rfl

end Walk

/-- What is seen of a run that came to a state and maybe ended there. -/
def Upshot.seen (s : State) : Option (Except Trap Unit) → Upshot
  | none => .cut s
  | some verdict => .ended s verdict

/-- How a walk of at most `j` steps passes a block: it gets no further, or goes
    on behind it. -/
inductive Walk.Passage (f : Bool) (b : Block) (after : List Block) (s : State) (j : Nat)
    (last : Walk) (verdict : Option (Except Trap Unit)) : Prop where
  | within {n : Nat} (course : Course f b.code s n (.seen last.state verdict))
  | beyond {n j' : Nat} {s' : State} (course : Course f b.code s n (.through s')) (sooner : j' ≤ j)
      (later : follow Walk.step j' ⟨.empty, after, s'⟩ = (last, verdict))

section Forth

variable {f : Bool} {b b' : Block} {after after' : List Block} {s s' : State} {i j d : Nat}
  {last : Walk} {verdict : Option (Except Trap Unit)}

theorem Upshot.stops_seen : (Upshot.seen s verdict).Stops := by
  cases verdict <;> trivial

theorem Walk.Passage.map (passage : Walk.Passage f b after s' i last verdict) (sooner : i ≤ j)
    (courses : ∀ {n e}, Course f b.code s' n e → Course f b'.code s (n + d) e) :
    Walk.Passage f b' after s j last verdict := by
  cases passage with
  | within course => exact .within (courses course)
  | beyond course sooner' later => exact .beyond (courses course) (Nat.le_trans sooner' sooner) later

/-- A walk follows a course of the block's code. -/
theorem Walk.passage (on : s.tape.OnTape)
    (run : follow Walk.step j ⟨b, after, s⟩ = (last, verdict)) :
    Walk.Passage f b after s j last verdict := by
  -- On the steps and not on the block: behind its body, a loop is walked again.
  induction j using Nat.strongRecOn generalizing b after s with
  | _ j ih =>
  obtain _ | j := j
  · cases run
    exact .within .cut
  cases b with
  | empty => exact .beyond .done (Nat.le_refl _) run
  | command c rest =>
      have exec := c.exec_instruction f on
      rcases act : c.exec s with ⟨s', t | control⟩
      · rw [follow_ended (Walk.step_trap act)] at run
        cases run
        exact .within (.trap (exec.trans act))
      have kept := Instruction.onTape_of_execAs (exec.trans act) on
      rcases c.leads_exec s control (by rw [act]) with rfl | rfl
      · rw [follow_succ (Walk.step_next act)] at run
        have passage := ih j (Nat.lt_succ_self j) kept run
        exact passage.map (Nat.le_succ j) fun course => .next (exec.trans act) course
      · rw [follow_ended (Walk.step_stop act)] at run
        cases run
        exact .within (.stop (exec.trans act))
  | loop body rest =>
      by_cases zero : s.tape.cell = 0
      · rw [follow_succ (Walk.step_skip zero)] at run
        have passage := ih j (Nat.lt_succ_self j) on run
        exact passage.map (Nat.le_succ j) fun course => .skip zero course
      · rw [follow_succ (Walk.step_enter zero)] at run
        cases ih j (Nat.lt_succ_self j) on run with
        | within course => exact .within (.leave zero course Upshot.stops_seen)
        | @beyond n j' s' round sooner again =>
            obtain _ | j' := j'
            · cases again
              exact .within (.enter zero round .cut)
            rw [follow_succ Walk.step_back] at again
            have passage := ih j' (by omega) (round.onTape on) again
            refine passage.map (d := n + 1) (by omega) fun {m e} course => ?_
            have count : m + (n + 1) = n + m + 1 := by omega
            rw [count]
            exact .enter zero round course

end Forth

/-- Where a walk gets to if a course leads to an upshot. -/
def Walk.Gets (b : Block) (after : List Block) (s : State) : Upshot → Prop
  | .through s' => ∃ j, follow step j ⟨b, after, s⟩ = (⟨.empty, after, s'⟩, none)
  | .ended s' verdict => ∃ j w, follow step j ⟨b, after, s⟩ = (w, some verdict) ∧ w.state = s'
  | .cut s' => ∃ j w, follow step j ⟨b, after, s⟩ = (w, none) ∧ w.state = s'

section Back

variable {f : Bool} {b b' : Block} {after after' : List Block} {s s' : State} {j n : Nat}
  {e : Upshot}

theorem Walk.Gets.of_follow (way : follow Walk.step j ⟨b, after, s⟩ = (⟨b', after, s'⟩, none))
    (gets : Walk.Gets b' after s' e) : Walk.Gets b after s e := by
  cases e with
  | through t =>
      obtain ⟨j', later⟩ := gets
      exact ⟨j + j', (follow_add way j').trans later⟩
  | ended t verdict | cut t =>
      obtain ⟨j', w, later, same⟩ := gets
      exact ⟨j + j', w, (follow_add way j').trans later, same⟩

theorem Walk.Gets.of_step (way : Walk.step ⟨b, after, s⟩ = (⟨b', after, s'⟩, none))
    (gets : Walk.Gets b' after s' e) : Walk.Gets b after s e :=
  gets.of_follow (j := 1) (by rw [follow_succ way, follow])

/-- Every course of a block's code is walked. -/
theorem Course.walked (after : List Block) (course : Course f b.code s n e) (on : s.tape.OnTape) :
    Walk.Gets b after s e := by
  generalize whole : b.code = c at course
  induction course generalizing b after with
  | cut => exact ⟨0, _, rfl, rfl⟩
  | done =>
      obtain rfl := Block.of_code_done whole
      exact ⟨0, rfl⟩
  | next act _ ih =>
      obtain ⟨c, rest, rfl, rfl, rfl⟩ := Block.of_code_plain whole
      have kept := Instruction.onTape_of_execAs act on
      rw [c.exec_instruction f on] at act
      exact (ih after kept rfl).of_step (Walk.step_next act)
  | again act _ _ =>
      obtain ⟨c, rest, rfl, rfl, rfl⟩ := Block.of_code_plain whole
      rw [c.exec_instruction f on] at act
      -- Only fused instructions are repeated, and no command is one.
      have leads := c.leads_exec _ .again (by rw [act])
      simp at leads
  | trap act =>
      obtain ⟨c, rest, rfl, rfl, rfl⟩ := Block.of_code_plain whole
      rw [c.exec_instruction f on] at act
      exact ⟨1, _, follow_ended (Walk.step_trap act) 0, rfl⟩
  | stop act =>
      obtain ⟨c, rest, rfl, rfl, rfl⟩ := Block.of_code_plain whole
      rw [c.exec_instruction f on] at act
      exact ⟨1, _, follow_ended (Walk.step_stop act) 0, rfl⟩
  | skip zero _ ih =>
      obtain ⟨body, rest, rfl, rfl, rfl⟩ := Block.of_code_loop whole
      exact (ih after on rfl).of_step (Walk.step_skip zero)
  | @enter _ _ s s' _ _ _ nonzero round _ ihRound ihLater =>
      obtain ⟨body, rest, rfl, rfl, rfl⟩ := Block.of_code_loop whole
      obtain ⟨j, way⟩ := ihRound (.loop body rest :: after) on rfl
      have gets := ihLater after (round.onTape on) whole
      have around : follow Walk.step (j + 1 + 1) ⟨.loop body rest, after, s⟩ =
          (⟨.loop body rest, after, s'⟩, none) := by
        rw [follow_succ (Walk.step_enter nonzero), follow_add way, follow_succ Walk.step_back,
          follow]
      exact gets.of_follow around
  | @leave _ _ s _ e nonzero _ stops ih =>
      obtain ⟨body, rest, rfl, rfl, rfl⟩ := Block.of_code_loop whole
      have gets := ih (.loop body rest :: after) on rfl
      cases e with
      | through => cases stops
      | ended | cut =>
          obtain ⟨j, w, way, same⟩ := gets
          exact ⟨j + 1, w, (follow_succ (Walk.step_enter nonzero) j).trans way, same⟩

end Back

/-! ## Whole blocks -/

theorem Walk.run_eq_some_iff {limit : Nat} {w last : Walk} {verdict : Except Trap Unit} :
    Walk.run limit w = some (last, verdict) ↔ follow Walk.step limit w = (last, some verdict) := by
  induction limit generalizing w with
  | zero => simp [Walk.run, follow]
  | succ limit ih =>
      rcases moved : w.step with ⟨w', _ | ended⟩
      · rw [follow_succ moved, ← ih, Walk.run, moved]
      · rw [follow_ended moved, Walk.run, moved]
        simp

/-- The walk through a block ends, in this state and in this way. -/
def Block.Ends (b : Block) (s s' : State) (verdict : Except Trap Unit) : Prop :=
  ∃ limit last, Walk.run limit { block := b, state := s } = some (last, verdict) ∧ last.state = s'

section Whole

variable {f : Bool} {b : Block} {s s' : State} {j : Nat} {verdict : Except Trap Unit} {last : Walk}

/-- Behind the block a walk is done. -/
theorem Walk.step_behind : Walk.step ⟨.empty, [], s⟩ = (⟨.empty, [], s.finish.1⟩, some s.finish.2) :=
  Walk.finish_eq ⟨.empty, [], s⟩

/-- The walk through a block ends as its code does. -/
theorem Block.ends_iff (on : s.tape.OnTape) :
    b.Ends s s' verdict ↔ ∃ n, b.code.Ends f s n s' verdict := by
  constructor
  · rintro ⟨limit, last, run, rfl⟩
    rw [Walk.run_eq_some_iff] at run
    cases Walk.passage (f := f) on run with
    | within course => exact ⟨_, .within course⟩
    | @beyond n j' t course _ later =>
        obtain _ | j' := j'
        · cases later
        rw [follow_ended Walk.step_behind] at later
        cases later
        exact ⟨n, .behind course rfl⟩
  · rintro ⟨n, ends⟩
    cases ends with
    | within course =>
        obtain ⟨j, w, run, same⟩ := course.walked [] on
        exact ⟨j, w, Walk.run_eq_some_iff.mpr run, same⟩
    | @behind t course flushed =>
        obtain ⟨j, way⟩ := course.walked [] on
        have run := follow_add way 1
        rw [follow_ended Walk.step_behind, flushed] at run
        exact ⟨j + 1, _, Walk.run_eq_some_iff.mpr run, rfl⟩

/-- What a walk has seen on its way is seen by a course that may be cut there. -/
theorem Walk.exists_course (on : s.tape.OnTape)
    (run : follow Walk.step j { block := b, state := s } = (last, none)) :
    ∃ n, Course f b.code s n (.cut last.state) := by
  cases Walk.passage (f := f) on run with
  | within course => exact ⟨_, course⟩
  | @beyond n j' t course _ later =>
      obtain _ | j' := j'
      · cases later
        exact ⟨n, course.cut_of_through⟩
      · rw [follow_ended Walk.step_behind] at later
        cases later

end Whole

end TapeLang
