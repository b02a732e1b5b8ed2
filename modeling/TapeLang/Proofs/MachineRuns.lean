import TapeLang.Machine.Run
import TapeLang.Proofs.Layout

/-! # Runs of machines

A machine that runs a linked program follows the courses of its code, and goes
nowhere else: runs end as the courses do, with the same number of executed
instructions.

`Machine.stepAs` reads instructions faithfully, if asked for. A faithful run ends
if the run ends and never comes to pour a cell onto itself.
-/

namespace TapeLang

/-- Go on for so many steps, or up to the first one that gives an outcome. -/
def follow {σ ω : Type} (step : σ → σ × Option ω) : Nat → σ → σ × Option ω
  | 0, x => (x, none)
  | n + 1, x =>
    match step x with
    | (y, some outcome) => (y, some outcome)
    | (y, none) => follow step n y

section Following

variable {σ ω : Type} {step : σ → σ × Option ω} {x y : σ} {outcome : ω}

theorem follow_succ (h : step x = (y, none)) (n : Nat) :
    follow step (n + 1) x = follow step n y := by
  rw [follow, h]

theorem follow_ended (h : step x = (y, some outcome)) (n : Nat) :
    follow step (n + 1) x = (y, some outcome) := by
  rw [follow, h]

theorem follow_add {n : Nat} (h : follow step n x = (y, none)) (m : Nat) :
    follow step (n + m) x = follow step m y := by
  induction n generalizing x with
  | zero =>
      cases h
      rw [Nat.zero_add]
  | succ n ih =>
      rw [Nat.add_right_comm]
      rcases moved : step x with ⟨z, _ | _⟩
      · rw [follow_succ moved] at h ⊢
        exact ih h
      · rw [follow_ended moved] at h
        cases h

/-- What every step keeps holds along the way, and of the state that a last step
    is taken from. -/
theorem follow_keeps {I : σ → Prop} (keeps : ∀ x, I x → I (step x).1) (n : Nat) (holds : I x) :
    I (follow step n x).1 ∧ ∀ y outcome, follow step n x = (y, some outcome) →
      ∃ z, I z ∧ step z = (y, some outcome) := by
  induction n generalizing x with
  | zero => exact ⟨holds, by simp [follow]⟩
  | succ n ih =>
      have kept := keeps x holds
      rcases moved : step x with ⟨z, _ | _⟩
      · rw [moved] at kept
        rw [follow_succ moved]
        exact ih kept
      · rw [moved] at kept
        rw [follow_ended moved]
        refine ⟨kept, ?_⟩
        rintro _ _ ⟨⟩
        exact ⟨x, holds, moved⟩

end Following

/-- Why a run ended without success, wherever that was. -/
def RunError.trap : RunError → Trap
  | .io e => .io e.op e.failure
  | .fault _ f => .fault f
  | .invalid _ op => .invalid op

@[simp] theorem RunError.trap_toError (pc : Address) (t : Trap) : (t.toError pc).trap = t := by
  cases t <;> rfl

/-- How a run ended, wherever that was. -/
def Outcome.verdict (outcome : Outcome) : Except Trap Unit :=
  outcome.mapError RunError.trap

theorem Outcome.verdict_error (pc : Address) (t : Trap) :
    Outcome.verdict (.error (t.toError pc)) = .error t := by
  simp [Outcome.verdict, Except.mapError]

theorem Outcome.verdict_mapError (pc : Address) (verdict : Except Trap Unit) :
    Outcome.verdict (verdict.mapError (Trap.toError pc)) = verdict := by
  cases verdict with
  | error t => exact verdict_error pc t
  | ok => rfl

namespace Machine

/-- The instruction to be executed. -/
def current? (m : Machine) : Option Instruction :=
  if m.pc.toInt < 0 then none else m.program[m.pc.toInt.toNat]?

/-- The machine is about to pour a cell that is not zero onto itself. -/
def PoursOntoItself (m : Machine) : Prop :=
  ∃ i, m.current? = some i ∧ i.PoursOntoItself m.state

instance (m : Machine) : Decidable m.PoursOntoItself :=
  match h : m.current? with
  | none => isFalse fun ⟨_, found, _⟩ => by simp [h] at found
  | some i =>
    if pours : i.PoursOntoItself m.state then isTrue ⟨i, h, pours⟩
    else isFalse fun ⟨_, found, pours'⟩ => by
      rw [h] at found
      cases found
      exact pours pours'

/-- One step, if asked for faithful to the loops that instructions stand for. -/
def stepAs (faithful : Bool) (m : Machine) : Machine × Option Outcome :=
  if faithful ∧ m.PoursOntoItself then (m, none) else m.step

/-- A machine in the middle of a program. -/
abbrev amid (program : Program) (k count : Nat) (s : State) : Machine :=
  ⟨program, ⟨k⟩, count, s⟩

variable {f : Bool} {program : Program} {k n : Nat} {s : State} {i : Instruction}

theorem current?_amid : (amid program k n s).current? = program[k]? := by
  have inside : ¬ ((k : Int) < 0) := by omega
  simp only [current?, if_neg inside, Int.toNat_natCast]

theorem finish_eq (m : Machine) : m.finish =
    (⟨m.program, m.pc, m.count, m.state.finish.1⟩,
      some (m.state.finish.2.mapError (Trap.toError m.pc))) := by
  obtain ⟨program, pc, count, ⟨tape, channels⟩⟩ := m
  rcases flushed : channels.flush with ⟨_, _ | _⟩
  · simp only [finish, State.finish, flushed]
    rfl
  · simp only [finish, State.finish, flushed]
    rfl

/-- Past its last instruction a machine is done. -/
theorem stepAs_end (past : program[k]? = none) :
    stepAs f (amid program k n s) = (amid program k n s).finish := by
  have nothing : ¬ (amid program k n s).PoursOntoItself := by
    rintro ⟨i, found, _⟩
    rw [current?_amid, past] at found
    cases found
  have inside : ¬ ((k : Int) < 0) := by omega
  rw [stepAs, if_neg fun h => nothing h.2]
  simp only [step, if_neg inside, Int.toNat_natCast, past]

/-- What a step does is up to the effect of the instruction. -/
theorem stepAs_amid (found : program[k]? = some i) : stepAs f (amid program k n s) =
    match i.execAs f s with
    | (s', .error trap) => (amid program k n s', some (.error (trap.toError ⟨k⟩)))
    | (s', .ok .again) => (amid program k n s', none)
    | (s', .ok .next) => (amid program (k + 1) (n + 1) s', none)
    | (s', .ok (.jump offset)) => (⟨program, ⟨k + offset + 1⟩, n + 1, s'⟩, none)
    | (s', .ok .stop) => (amid program k (n + 1) s').finish := by
  have inside : ¬ ((k : Int) < 0) := by omega
  have pours : (amid program k n s).PoursOntoItself ↔ i.PoursOntoItself s := by
    simp only [PoursOntoItself, current?_amid, found, Option.some.injEq, exists_eq_left']
  by_cases stuck : f = true ∧ i.PoursOntoItself s
  · obtain ⟨rfl, onto⟩ := stuck
    rw [stepAs, if_pos ⟨rfl, pours.mpr onto⟩, Instruction.execAs_of_pours onto]
  · rw [stepAs, if_neg (fun h => stuck ⟨h.1, pours.mp h.2⟩), Instruction.execAs, if_neg stuck]
    simp only [step, if_neg inside, Int.toNat_natCast, found, perform]
    rfl

end Machine

/-! ## Where code stands -/

/-- The code stands in the program from index `k` on. -/
inductive Placed (program : Program) : Code → Nat → Prop where
  | done {k : Nat} : Placed program .done k
  | plain {i : Instruction} {rest : Code} {k : Nat} (found : program[k]? = some i)
      (isPlain : i.IsPlain) (later : Placed program rest (k + 1)) :
      Placed program (.plain i rest) k
  | loop {o e : Instruction} {body rest : Code} {k : Nat}
      (found : program[k]? = some o) (opens : o.op = .jez) (out : o.arg.toNat = body.length + 1)
      (inside : Placed program body (k + 1))
      (found' : program[k + (body.length + 1)]? = some e) (closes : e.op = .jnz)
      (back : e.arg.toNat = body.length + 1)
      (later : Placed program rest (k + (body.length + 2))) :
      Placed program (.loop body rest) k

theorem Layout.placed {c : Code} {p u v : List Instruction} (linked : Linked c p)
    {program : Program} (split : program.toList = u ++ (p ++ v)) :
    Placed program c u.length := by
  have lookup : ∀ {a b : List Instruction} {i : Instruction}, program.toList = a ++ i :: b →
      program[a.length]? = some i := by
    intro a b i split
    rw [← Array.getElem?_toList, split]
    simp
  induction linked generalizing u v with
  | done => exact .done
  | @plain i _ q isPlain _ ih =>
      have later := ih (u := u ++ [i]) (v := v) (by simp [split])
      rw [List.length_append] at later
      exact .plain (lookup split) isPlain later
  | @loop o e body _ p q opens inside closes _ out back ihInside ihLater =>
      have body := ihInside (u := u ++ [o]) (v := e :: q ++ v) (by simp [split])
      have rest := ihLater (u := u ++ o :: (p ++ [e])) (v := v) (by simp [split])
      have last := lookup (a := u ++ o :: p) (b := q ++ v) (i := e) (by simp [split])
      simp only [List.length_append, List.length_cons, List.length_nil, inside.length_eq]
        at body rest last
      exact .loop (lookup split) opens out body last closes back rest

section Parts

variable {program : Program} {i : Instruction} {body rest : Code} {k : Nat}

theorem Placed.of_plain (placed : Placed program (.plain i rest) k) :
    program[k]? = some i ∧ i.IsPlain ∧ Placed program rest (k + 1) := by
  cases placed with
  | plain found isPlain later => exact ⟨found, isPlain, later⟩

theorem Placed.inside (placed : Placed program (.loop body rest) k) :
    Placed program body (k + 1) := by
  cases placed with
  | loop _ _ _ inside _ _ _ _ => exact inside

theorem Placed.behind (placed : Placed program (.loop body rest) k) :
    Placed program rest (k + (body.length + 2)) := by
  cases placed with
  | loop _ _ _ _ _ _ _ later => exact later

end Parts

/-- Where control may enter code that stands at `k`: at its front, or where the
    first round of a loop comes back. -/
inductive Code.Entry (k : Nat) : Code → Nat → Prop where
  | front {c : Code} : Entry k c k
  | back {body rest : Code} : Entry k (.loop body rest) (k + (body.length + 1))

section Control

variable {f : Bool} {program : Program} {body rest : Code} {k pc n : Nat} {s : State}

open Machine (amid stepAs stepAs_amid)

/-- A loop is tested in the same way at both of its jumps. -/
theorem Placed.stepAs_test (placed : Placed program (.loop body rest) k)
    (entry : Code.Entry k (.loop body rest) pc) (on : s.tape.OnTape) :
    stepAs f (amid program pc n s) =
      (amid program (if s.tape.cell = 0 then k + (body.length + 2) else k + 1) (n + 1) s, none) := by
  cases placed with
  | @loop o e _ _ _ found opens out _ found' closes back _ =>
      obtain ⟨_, d, a⟩ := o
      obtain ⟨_, d', a'⟩ := e
      cases opens
      cases closes
      simp only at out back
      cases entry with
      | front =>
          have past : (k : Int) + d.toNat + 1 = (k + (body.length + 2) : Nat) := by omega
          rw [stepAs_amid found, Instruction.Harmless.execAs (by simp [Instruction.Harmless]),
            Instruction.exec_jez d a on]
          by_cases zero : s.tape.cell = 0
          · simp only [if_pos zero, past]
          · simp only [if_neg zero]
      | back =>
          have first : ((k + (body.length + 1) : Nat) : Int) + -d'.toNat + 1 = (k + 1 : Nat) := by omega
          rw [stepAs_amid found', Instruction.Harmless.execAs (by simp [Instruction.Harmless]),
            Instruction.exec_jnz d' a' on]
          by_cases zero : s.tape.cell = 0
          · simp only [if_pos zero, Nat.add_assoc]
          · simp only [if_neg zero, first]

theorem Placed.stepAs_enter (placed : Placed program (.loop body rest) k)
    (entry : Code.Entry k (.loop body rest) pc) (on : s.tape.OnTape) (nonzero : s.tape.cell ≠ 0) :
    stepAs f (amid program pc n s) = (amid program (k + 1) (n + 1) s, none) := by
  rw [placed.stepAs_test entry on, if_neg nonzero]

theorem Placed.stepAs_skip (placed : Placed program (.loop body rest) k)
    (entry : Code.Entry k (.loop body rest) pc) (on : s.tape.OnTape) (zero : s.tape.cell = 0) :
    stepAs f (amid program pc n s) = (amid program (k + (body.length + 2)) (n + 1) s, none) := by
  rw [placed.stepAs_test entry on, if_pos zero]

end Control

/-! ## Courses are run -/

/-- Where a machine gets to if a course of `n` instructions, in code that ends at
    index `stop`, leads to an upshot. -/
def Machine.Gets (f : Bool) (m : Machine) (stop n : Nat) : Upshot → Prop
  | .through s => ∃ j, follow (stepAs f) j m = (amid m.program stop (m.count + n) s, none)
  | .ended s verdict => ∃ j m' outcome, follow (stepAs f) j m = (m', some outcome) ∧
      m'.state = s ∧ m'.count = m.count + n ∧ Outcome.verdict outcome = verdict
  | .cut s => ∃ j m', follow (stepAs f) j m = (m', none) ∧ m'.state = s

section Forth

variable {f : Bool} {program : Program} {c : Code} {k k' pc stop n d m j : Nat} {s s' : State}
  {e : Upshot}

open Machine (amid stepAs stepAs_amid Gets)

theorem Machine.Gets.of_follow (way : follow (stepAs f) j (amid program k m s) =
    (amid program k' (m + d) s', none)) (gets : Gets f (amid program k' (m + d) s') stop n e) :
    Gets f (amid program k m s) stop (d + n) e := by
  cases e with
  | through t =>
      obtain ⟨j', later⟩ := gets
      refine ⟨j + j', ?_⟩
      rw [follow_add way, later]
      simp only [amid, Nat.add_assoc]
  | ended t verdict =>
      obtain ⟨j', m', outcome, later, same, count, judged⟩ := gets
      refine ⟨j + j', m', outcome, (follow_add way j').trans later, same, ?_, judged⟩
      rw [count, Nat.add_assoc]
  | cut t =>
      obtain ⟨j', m', later, same⟩ := gets
      exact ⟨j + j', m', (follow_add way j').trans later, same⟩

theorem Machine.Gets.of_step
    (way : stepAs f (amid program k m s) = (amid program k' (m + 1) s', none))
    (gets : Gets f (amid program k' (m + 1) s') stop n e) :
    Gets f (amid program k m s) stop (n + 1) e := by
  rw [Nat.add_comm n 1]
  exact gets.of_follow (j := 1) (by rw [follow_succ way, follow])

/-- A machine runs the courses of the code that stands in its program. -/
theorem Course.gets (course : Course f c s n e) (placed : Placed program c k)
    (entry : c.Entry k pc) (on : s.tape.OnTape) :
    Gets f (amid program pc m s) (k + c.length) n e := by
  induction course generalizing k pc m with
  | cut => exact ⟨0, _, rfl, rfl⟩
  | done =>
      cases entry
      exact ⟨0, rfl⟩
  | @next i rest s s' n e act later ih =>
      cases entry
      obtain ⟨found, _, later⟩ := placed.of_plain
      have kept := Instruction.onTape_of_execAs act on
      have gets := ih (m := m + 1) later .front kept
      rw [Code.length, Nat.add_comm rest.length, ← Nat.add_assoc]
      exact gets.of_step (by rw [stepAs_amid found, act])
  | @again i rest s s' n e act later ih =>
      cases entry
      have found := placed.of_plain.1
      have kept := Instruction.onTape_of_execAs act on
      have gets := ih (m := m) placed .front kept
      -- The machine takes a step here that neither moves on nor counts.
      have stays : stepAs f (amid program k m s) = (amid program k m s', none) := by
        rw [stepAs_amid found, act]
      rw [← Nat.zero_add n]
      exact gets.of_follow (j := 1) (by rw [follow_succ stays, follow]; rfl)
  | @trap i rest s s' t act =>
      cases entry
      have found := placed.of_plain.1
      have ends : stepAs f (amid program k m s) =
          (amid program k m s', some (.error (t.toError ⟨k⟩))) := by
        rw [stepAs_amid found, act]
      exact ⟨1, _, _, follow_ended ends 0, rfl, rfl, Outcome.verdict_error ..⟩
  | @stop i rest s s' act =>
      cases entry
      have found := placed.of_plain.1
      have ends : stepAs f (amid program k m s) = (amid program k (m + 1) s').finish := by
        rw [stepAs_amid found, act]
      rw [Machine.finish_eq] at ends
      exact ⟨1, _, _, follow_ended ends 0, rfl, rfl, Outcome.verdict_mapError ..⟩
  | @skip body rest s n e zero later ih =>
      have step := placed.stepAs_skip (f := f) (n := m) entry on zero
      have gets := ih (m := m + 1) placed.behind .front on
      have stop : k + (Code.loop body rest).length = k + (body.length + 2) + rest.length := by
        rw [Code.length]
        omega
      rw [stop]
      exact gets.of_step step
  | @enter body rest s s' n m' e nonzero round later ihRound ihLater =>
      have step := placed.stepAs_enter (f := f) (n := m) entry on nonzero
      obtain ⟨j, way⟩ := ihRound (m := m + 1) placed.inside .front on
      have back : k + 1 + body.length = k + (body.length + 1) := by omega
      rw [back] at way
      have gets := ihLater (m := m + 1 + n) placed .back (round.onTape on)
      exact (gets.of_follow way).of_step step
  | @leave body rest s n e nonzero round stops ih =>
      have step := placed.stepAs_enter (f := f) (n := m) entry on nonzero
      have gets := ih (m := m + 1) placed.inside .front on
      cases e with
      | through => cases stops
      | ended => exact gets.of_step step
      | cut => exact gets.of_step step

end Forth

/-! ## Runs are courses -/

/-- How a run that ends after at most `j` steps passes code that ends at index
    `stop`: it ends within the code, or goes on from there. -/
inductive Machine.Passage (f : Bool) (program : Program) (c : Code) (s : State) (m stop j : Nat)
    (last : Machine) (outcome : Outcome) : Prop where
  | within {n : Nat} (course : Course f c s n (.ended last.state (Outcome.verdict outcome)))
      (count : last.count = m + n)
  | beyond {n j' : Nat} {s' : State} (course : Course f c s n (.through s')) (sooner : j' ≤ j)
      (later : follow (stepAs f) j' (amid program stop (m + n) s') = (last, some outcome))

section Back

variable {f : Bool} {program : Program} {c c' : Code} {k pc stop m d j i : Nat} {s s' : State}
  {last : Machine} {outcome : Outcome}

open Machine (amid stepAs stepAs_amid Passage)

theorem Machine.Passage.map (passage : Passage f program c s' (m + d) stop i last outcome)
    (sooner : i ≤ j) (courses : ∀ {n e}, Course f c s' n e → Course f c' s (d + n) e) :
    Passage f program c' s m stop j last outcome := by
  cases passage with
  | within course count => exact .within (courses course) (by rw [count, Nat.add_assoc])
  | beyond course sooner' later =>
      exact .beyond (courses course) (Nat.le_trans sooner' sooner) (by rw [← Nat.add_assoc, later])

/-- A run that ends follows a course of the code that stands in its program. -/
theorem Placed.passage (placed : Placed program c k) (entry : c.Entry k pc) (on : s.tape.OnTape)
    (run : follow (stepAs f) j (amid program pc m s) = (last, some outcome)) :
    Passage f program c s m (k + c.length) j last outcome := by
  -- Every case but the empty code takes a step, so the number of steps decreases.
  induction j using Nat.strongRecOn generalizing c k pc m s with
  | _ j ih =>
  obtain _ | j := j
  · cases c with
    | done =>
        cases entry
        exact .beyond .done (Nat.le_refl 0) run
    | plain | loop => cases run
  cases c with
  | done =>
      cases entry
      exact .beyond .done (Nat.le_refl _) run
  | plain i rest =>
      cases entry
      obtain ⟨found, isPlain, later⟩ := placed.of_plain
      have step := stepAs_amid (f := f) (n := m) (s := s) found
      rcases act : i.execAs f s with ⟨s', t | control⟩
      · rw [act] at step
        rw [follow_ended step] at run
        cases run
        refine .within (n := 0) ?_ rfl
        rw [Outcome.verdict_error]
        exact .trap act
      · have kept := Instruction.onTape_of_execAs act on
        rw [act] at step
        cases control with
        | next =>
            rw [follow_succ step] at run
            have passage := ih j (Nat.lt_succ_self j) later .front kept run
            rw [Nat.add_right_comm k 1] at passage
            refine passage.map (Nat.le_succ j) fun {n _} course => ?_
            rw [Nat.add_comm 1 n]
            exact .next act course
        | again =>
            rw [follow_succ step] at run
            have passage := ih j (Nat.lt_succ_self j) placed .front kept run
            refine passage.map (d := 0) (Nat.le_succ j) fun {n _} course => ?_
            rw [Nat.zero_add n]
            exact .again act course
        | jump offset => exact absurd act (Instruction.execAs_ne_jump isPlain.1 isPlain.2)
        | stop =>
            rw [follow_ended (step.trans (Machine.finish_eq _))] at run
            cases run
            refine .within (n := 1) ?_ rfl
            rw [Outcome.verdict_mapError]
            exact .stop act
  | loop body rest =>
      by_cases zero : s.tape.cell = 0
      · have step := placed.stepAs_skip (f := f) (n := m) entry on zero
        rw [follow_succ step] at run
        have passage := ih j (Nat.lt_succ_self j) placed.behind .front on run
        have stop : k + (body.length + 2) + rest.length = k + (Code.loop body rest).length := by
          rw [Code.length]
          omega
        rw [stop] at passage
        refine passage.map (Nat.le_succ j) fun {n _} course => ?_
        rw [Nat.add_comm 1 n]
        exact .skip zero course
      · have step := placed.stepAs_enter (f := f) (n := m) entry on zero
        rw [follow_succ step] at run
        cases ih j (Nat.lt_succ_self j) placed.inside .front on run with
        | @within n course count =>
            refine .within (.leave zero course trivial) ?_
            rw [count]
            omega
        | @beyond n j' s' round sooner again =>
            have back : k + 1 + body.length = k + (body.length + 1) := by omega
            rw [back, Nat.add_assoc m] at again
            have passage := ih j' (Nat.lt_succ_of_le sooner) placed .back (round.onTape on) again
            refine passage.map (Nat.le_succ_of_le sooner) fun {n' e} course => ?_
            have count : 1 + n + n' = n + n' + 1 := by omega
            rw [count]
            exact .enter zero round course

end Back

/-! ## Whole programs -/

/-- Executing the code ends the run: within the code, or behind it once the
    output has been flushed. -/
inductive Code.Ends (f : Bool) (c : Code) (s : State) (n : Nat) (s' : State)
    (verdict : Except Trap Unit) : Prop where
  | within (course : Course f c s n (.ended s' verdict))
  | behind {t : State} (course : Course f c s n (.through t)) (flushed : t.finish = (s', verdict))

/-- Code that refines another ends where the other does. -/
theorem Refines.ends {cheap : Prop} {f : Bool} {c c' : Code} (refines : Refines cheap f c c')
    {s s' : State} {n : Nat} {verdict : Except Trap Unit} (on : s.tape.OnTape)
    (ends : c.Ends f s n s' verdict) : ∃ n', c'.Ends f s n' s' verdict ∧ (cheap → n' ≤ n) := by
  cases ends with
  | within course =>
      obtain ⟨n', e, course', below, fewer⟩ := refines s on n _ course
      cases below
      exact ⟨n', .within course', fewer⟩
  | behind course flushed =>
      obtain ⟨n', e, course', below, fewer⟩ := refines s on n _ course
      cases below
      exact ⟨n', .behind course' flushed, fewer⟩

/-- A run of the program from its first instruction ends after `n` instructions. -/
def Program.EndsAs (f : Bool) (program : Program) (s : State) (n : Nat) (s' : State)
    (verdict : Except Trap Unit) : Prop :=
  ∃ j last outcome, follow (Machine.stepAs f) j (Machine.amid program 0 0 s) = (last, some outcome) ∧
    last.state = s' ∧ last.count = n ∧ Outcome.verdict outcome = verdict

section Whole

variable {f : Bool} {program : Program} {c : Code} {s s' : State} {n : Nat}
  {verdict : Except Trap Unit}

open Machine (amid stepAs)

theorem Layout.placed_whole (linked : Linked c program.toList) : Placed program c 0 :=
  linked.placed (u := []) (v := []) (by simp)

/-- Behind all of its code a machine is done. -/
theorem Layout.stepAs_behind (linked : Linked c program.toList) :
    stepAs f (amid program (0 + c.length) n s) =
      (amid program (0 + c.length) n s.finish.1,
        some (s.finish.2.mapError (Trap.toError ⟨(0 + c.length : Nat)⟩))) := by
  have past : program[0 + c.length]? = none := by
    rw [← linked.length_eq, Nat.zero_add, Array.length_toList]
    simp
  rw [Machine.stepAs_end past, Machine.finish_eq]

/-- The run of a linked program ends as its code does. -/
theorem Layout.endsAs_iff (linked : Linked c program.toList) (on : s.tape.OnTape) :
    program.EndsAs f s n s' verdict ↔ c.Ends f s n s' verdict := by
  constructor
  · rintro ⟨j, last, outcome, run, rfl, rfl, rfl⟩
    cases linked.placed_whole.passage .front on run with
    | within course count =>
        rw [Nat.zero_add] at count
        exact .within (count ▸ course)
    | @beyond n j' t course _ later =>
        obtain _ | j' := j'
        · cases later
        rw [follow_ended linked.stepAs_behind] at later
        cases later
        rw [Outcome.verdict_mapError]
        exact .behind ((Nat.zero_add n).symm ▸ course) rfl
  · intro ends
    cases ends with
    | within course =>
        obtain ⟨j, last, outcome, run, same, count, judged⟩ :=
          course.gets (m := 0) linked.placed_whole .front on
        exact ⟨j, last, outcome, run, same, by rw [count, Nat.zero_add], judged⟩
    | @behind t course flushed =>
        obtain ⟨j, way⟩ := course.gets (m := 0) linked.placed_whole .front on
        have run := follow_add way 1
        rw [follow_ended linked.stepAs_behind] at run
        exact ⟨j + 1, _, _, run, by rw [flushed], Nat.zero_add n,
          by rw [Outcome.verdict_mapError, flushed]⟩

/-- What a course has seen on its way, the machine comes to see. -/
theorem Layout.exists_follow_of_cut (linked : Linked c program.toList) (on : s.tape.OnTape)
    (course : Course f c s n (.cut s')) :
    ∃ j m, follow (stepAs f) j (amid program 0 0 s) = (m, none) ∧ m.state = s' :=
  course.gets (m := 0) linked.placed_whole .front on

end Whole

/-! ## Faithful runs -/

namespace Machine

variable {m last : Machine} {outcome : Outcome} {j : Nat}

/-- On its way the machine never comes to pour a cell onto itself. -/
def NeverPoursOntoItself (m : Machine) : Prop :=
  ∀ j m', follow step j m = (m', none) → ¬ m'.PoursOntoItself

theorem stepAs_false : stepAs false = step := by
  funext m
  simp [stepAs]

theorem neverPours_of_step {m' : Machine} (moved : m.step = (m', none)) :
    m.NeverPoursOntoItself ↔ ¬ m.PoursOntoItself ∧ m'.NeverPoursOntoItself := by
  constructor
  · intro never
    exact ⟨never 0 m rfl, fun j last way => never (j + 1) last ((follow_succ moved j).trans way)⟩
  · rintro ⟨safe, never⟩ j last way
    cases j with
    | zero =>
        cases way
        exact safe
    | succ j => exact never j last ((follow_succ moved j).symm.trans way)

theorem follow_of_faithful (run : follow (stepAs true) j m = (last, some outcome)) :
    (∃ i, follow step i m = (last, some outcome)) ∧ m.NeverPoursOntoItself := by
  induction j generalizing m with
  | zero => cases run
  | succ j ih =>
      by_cases pours : m.PoursOntoItself
      · -- The step changes nothing, so the run would go on in the same place.
        have stays : stepAs true m = (m, none) := by simp [stepAs, pours]
        rw [follow_succ stays] at run
        exact absurd pours ((ih run).2 0 m rfl)
      have same : stepAs true m = m.step := by simp [stepAs, pours]
      rcases moved : m.step with ⟨m', _ | ended⟩
      · rw [follow_succ (same.trans moved)] at run
        obtain ⟨⟨i, way⟩, never⟩ := ih run
        exact ⟨⟨i + 1, (follow_succ moved i).trans way⟩,
          (neverPours_of_step moved).mpr ⟨pours, never⟩⟩
      · rw [follow_ended (same.trans moved)] at run
        refine ⟨⟨1, (follow_ended moved 0).trans run⟩, ?_⟩
        intro i m₁ way
        cases i with
        | zero =>
            cases way
            exact pours
        | succ i =>
            rw [follow_ended moved] at way
            cases way

theorem faithful_of_follow (run : follow step j m = (last, some outcome))
    (never : m.NeverPoursOntoItself) : follow (stepAs true) j m = (last, some outcome) := by
  induction j generalizing m with
  | zero => cases run
  | succ j ih =>
      have same : stepAs true m = m.step := by simp [stepAs, never 0 m rfl]
      rcases moved : m.step with ⟨m', _ | ended⟩
      · rw [follow_succ moved] at run
        rw [follow_succ (same.trans moved)]
        exact ih run ((neverPours_of_step moved).mp never).2
      · rw [follow_ended moved] at run
        rw [follow_ended (same.trans moved), run]

theorem resume_eq_some_iff {limit : Nat} :
    resume limit m = some (last, outcome) ↔ follow step limit m = (last, some outcome) := by
  induction limit generalizing m with
  | zero => simp [resume, follow]
  | succ limit ih =>
      rcases moved : m.step with ⟨m', _ | ended⟩
      · rw [follow_succ moved, ← ih, resume, moved]
      · rw [follow_ended moved, resume, moved]
        simp

end Machine

/-- The run of a program from its first instruction ends, in this state and in
    this way. -/
def Program.Ends (program : Program) (s s' : State) (verdict : Except Trap Unit) : Prop :=
  ∃ limit last outcome, Machine.run limit { program, state := s } = some (last, outcome) ∧
    last.state = s' ∧ Outcome.verdict outcome = verdict

theorem Program.ends_iff {program : Program} {s s' : State} {verdict : Except Trap Unit} :
    program.Ends s s' verdict ↔ ∃ n, program.EndsAs false s n s' verdict := by
  constructor
  · rintro ⟨limit, last, outcome, run, same, judged⟩
    rw [Machine.run, Machine.resume_eq_some_iff, ← Machine.stepAs_false] at run
    exact ⟨last.count, limit, last, outcome, run, same, rfl, judged⟩
  · rintro ⟨_, j, last, outcome, run, same, _, judged⟩
    rw [Machine.stepAs_false] at run
    exact ⟨j, last, outcome, Machine.resume_eq_some_iff.mpr run, same, judged⟩

/-- A faithful run ends if the run does and never pours a cell onto itself. -/
theorem Program.exists_endsAs_true_iff {program : Program} {s s' : State}
    {verdict : Except Trap Unit} : (∃ n, program.EndsAs true s n s' verdict) ↔
      program.Ends s s' verdict ∧
        Machine.NeverPoursOntoItself { program, state := s } := by
  rw [Program.ends_iff]
  constructor
  · rintro ⟨n, j, last, outcome, run, same, count, judged⟩
    obtain ⟨⟨i, way⟩, never⟩ := Machine.follow_of_faithful run
    rw [← Machine.stepAs_false] at way
    exact ⟨⟨n, i, last, outcome, way, same, count, judged⟩, never⟩
  · rintro ⟨⟨n, j, last, outcome, run, same, count, judged⟩, never⟩
    rw [Machine.stepAs_false] at run
    exact ⟨n, j, last, outcome, Machine.faithful_of_follow run never, same, count, judged⟩

end TapeLang
