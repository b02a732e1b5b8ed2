import TapeLang.Proofs.Code

/-! # Replacing a window by an instruction

Tools for comparing a window of code with the instruction that stands for it.
A window that does nothing on the channels either passes control on to what
follows it, in a state that the instruction reaches too, or goes on for ever in
silence. For loops this is a matter of their bodies: an invariant of the body
says where the loop leads, and a number that the body makes smaller says that
it leads there.
-/

namespace TapeLang

variable {f : Bool} {c body rest : Code} {i j : Instruction} {s s' : State}

/-- A cut before anything happened on the channels. -/
def Upshot.Silent (s : State) (e : Upshot) : Prop :=
  ∃ t, e = .cut t ∧ t.log = s.log

/-- Whatever is seen of the code, nothing happens. -/
def Spins (f : Bool) (c : Code) (s : State) : Prop :=
  ∀ n e, Course f c s n e → e.Silent s

/-- The code leads to its end in the second state, and nothing happens on the
    way. -/
def Passes (f : Bool) (c : Code) (s s' : State) : Prop :=
  (∃ n, Course f c s n (.through s')) ∧
    ∀ n e, Course f c s n e → e = .through s' ∨ e.Silent s

/-- The code goes on as the rest does from the second state, after at least one
    instruction, and nothing happens before. -/
def Yields (f : Bool) (c : Code) (s : State) (rest : Code) (s' : State) : Prop :=
  ∀ n e, Course f c s n e → (∃ n', Course f rest s' n' e ∧ n' + 1 ≤ n) ∨ e.Silent s

/-- The code does go on as the rest does from the second state. -/
def Reaches (f : Bool) (c : Code) (s : State) (rest : Code) (s' : State) : Prop :=
  ∀ n e, Course f rest s' n e → ∃ n', Course f c s n' e

theorem Upshot.Silent.cut (s : State) : Upshot.Silent s (.cut s) :=
  ⟨s, rfl, rfl⟩

theorem Upshot.Silent.below {e : Upshot} (silent : e.Silent s) : e.Below (.cut s) := by
  obtain ⟨t, rfl, same⟩ := silent
  exact .later (same ▸ List.prefix_refl _)

theorem Upshot.Silent.of_log_eq {e : Upshot} (silent : e.Silent s') (same : s'.log = s.log) :
    e.Silent s := by
  obtain ⟨t, rfl, log⟩ := silent
  exact ⟨t, rfl, log.trans same⟩

/-- An instruction that leads to the next one either has not been executed, or
    the course goes on behind it. -/
theorem Course.of_next {n : Nat} {e : Upshot} (act : i.execAs f s = (s', .ok .next))
    (course : Course f (.plain i rest) s n e) :
    e = .cut s ∨ ∃ k, n = k + 1 ∧ Course f rest s' k e := by
  cases course with
  | cut => exact .inl rfl
  | next act' later =>
      obtain rfl : s' = _ := by simpa using act.symm.trans act'
      exact .inr ⟨_, rfl, later⟩
  | again act' | trap act' | stop act' => simp [act] at act'

section Straight

theorem Yields.plain (act : i.execAs f s = (s', .ok .next)) : Yields f (.plain i rest) s rest s' := by
  intro n e course
  rcases course.of_next act with rfl | ⟨k, rfl, later⟩
  · exact .inr (.cut s)
  · exact .inl ⟨k, later, Nat.le_refl _⟩

theorem Reaches.plain (act : i.execAs f s = (s', .ok .next)) : Reaches f (.plain i rest) s rest s' :=
  fun n _ later => ⟨n + 1, .next act later⟩

theorem Yields.trans {r : Code} {s'' : State} (first : Yields f c s r s')
    (second : Yields f r s' rest s'') (same : s'.log = s.log) : Yields f c s rest s'' := by
  intro n e course
  rcases first n e course with ⟨k, later, fewer⟩ | silent
  · rcases second k e later with ⟨m, last, fewer'⟩ | silent
    · exact .inl ⟨m, last, by omega⟩
    · exact .inr (silent.of_log_eq same)
  · exact .inr silent

theorem Reaches.trans {r : Code} {s'' : State} (first : Reaches f c s r s')
    (second : Reaches f r s' rest s'') : Reaches f c s rest s'' := by
  intro n e last
  obtain ⟨k, later⟩ := second n e last
  exact first k e later

theorem Passes.done : Passes f .done s s := by
  refine ⟨⟨0, .done⟩, ?_⟩
  intro n e course
  cases course with
  | cut => exact .inr (.cut s)
  | done => exact .inl rfl

theorem Passes.plain {s'' : State} (act : i.execAs f s = (s', .ok .next)) (same : s'.log = s.log)
    (later : Passes f rest s' s'') : Passes f (.plain i rest) s s'' := by
  obtain ⟨⟨k, run⟩, all⟩ := later
  refine ⟨⟨k + 1, .next act run⟩, ?_⟩
  intro n e course
  rcases course.of_next act with rfl | ⟨m, rfl, behind⟩
  · exact .inr (.cut s)
  · exact (all m e behind).imp_right (·.of_log_eq same)

theorem Spins.plain (act : i.execAs f s = (s', .ok .next)) (same : s'.log = s.log)
    (later : Spins f rest s') : Spins f (.plain i rest) s := by
  intro n e course
  rcases course.of_next act with rfl | ⟨m, rfl, behind⟩
  · exact .cut s
  · exact (later m e behind).of_log_eq same

/-- An instruction that is executed again in the same state. -/
theorem Spins.again (act : i.execAs f s = (s, .ok .again)) : Spins f (.plain i rest) s := by
  intro n e course
  generalize whole : Code.plain i rest = w at course
  induction course with
  | cut => exact .cut _
  | again act' _ ih =>
      cases whole
      obtain rfl : _ = _ := by simpa using act.symm.trans act'
      exact ih act rfl
  | next act' | trap act' | stop act' =>
      cases whole
      simp [act] at act'
  | done | skip | enter | leave => cases whole

end Straight

section Loops

theorem Reaches.skip (zero : s.tape.cell = 0) : Reaches f (.loop body rest) s rest s :=
  fun n _ later => ⟨n + 1, .skip zero later⟩

/-- A loop whose body comes back to where it started. -/
theorem Spins.loop (nonzero : s.tape.cell ≠ 0) (round : Passes f body s s) :
    Spins f (.loop body rest) s := by
  intro n e course
  generalize whole : Code.loop body rest = w at course
  induction course with
  | cut => exact .cut _
  | skip zero =>
      cases whole
      exact absurd zero nonzero
  | enter _ run _ _ ih =>
      cases whole
      rcases round.2 _ _ run with same | ⟨t, same, _⟩
      · cases same
        exact ih nonzero round rfl
      · cases same
  | leave _ run stops =>
      cases whole
      rcases round.2 _ _ run with rfl | silent
      · cases stops
      · exact silent
  | done | next | again | trap | stop => cases whole

variable {step total : Tape → Tape}

/-- The body acts on the tape alone, in the same way from every state. -/
def Works (f : Bool) (body : Code) (step : Tape → Tape) : Prop :=
  ∀ s, s.tape.OnTape → (step s.tape).OnTape ∧ Passes f body s (s.onTape step)

/-- What is the same before and after each round, and no change once the cell
    is zero, is what the loop does if it ends. -/
theorem Yields.loop (works : Works f body step)
    (last : ∀ t : Tape, t.OnTape → t.cell = 0 → total t = t)
    (round : ∀ t : Tape, t.OnTape → t.cell ≠ 0 → total (step t) = total t)
    (on : s.tape.OnTape) : Yields f (.loop body rest) s rest (s.onTape total) := by
  intro n e course
  -- Each round leaves the total as it is, and the last one finds it on the tape.
  generalize whole : Code.loop body rest = w at course
  induction course with
  | cut => exact .inr (.cut _)
  | @skip _ _ s n e zero later =>
      cases whole
      rw [State.onTape_eq_self (last s.tape on zero)]
      exact .inl ⟨n, later, Nat.le_refl _⟩
  | @enter _ _ s s' n m e nonzero run _ _ ih =>
      cases whole
      obtain ⟨on', _, all⟩ := works s on
      rcases all _ _ run with same | ⟨t, same, _⟩
      · cases same
        rcases ih on' rfl with ⟨k, later, fewer⟩ | silent
        · have after : (s.onTape step).onTape total = s.onTape total :=
            State.onTape_congr (f := fun t => total (step t)) (round s.tape on nonzero)
          rw [after] at later
          exact .inl ⟨k, later, by omega⟩
        · exact .inr silent
      · cases same
  | @leave _ _ s n e nonzero run stops =>
      cases whole
      rcases (works s on).2.2 _ _ run with rfl | silent
      · cases stops
      · exact .inr silent
  | done | next | again | trap | stop => cases whole

/-- A loop ends if each round on a good tape leaves it good and makes a number
    smaller. -/
theorem Reaches.loop (works : Works f body step)
    (last : ∀ t : Tape, t.OnTape → t.cell = 0 → total t = t)
    (round : ∀ t : Tape, t.OnTape → t.cell ≠ 0 → total (step t) = total t)
    (good : Tape → Prop) (kept : ∀ t : Tape, good t → good (step t)) (left : Tape → Nat)
    (fewer : ∀ t : Tape, t.OnTape → good t → t.cell ≠ 0 → left (step t) < left t)
    (on : s.tape.OnTape) (start : good s.tape) :
    Reaches f (.loop body rest) s rest (s.onTape total) := by
  intro n e later
  induction more : left s.tape using Nat.strongRecOn generalizing s with
  | ind k ih =>
      by_cases zero : s.tape.cell = 0
      · rw [State.onTape_eq_self (last s.tape on zero)] at later
        exact ⟨n + 1, .skip zero later⟩
      · obtain ⟨on', ⟨m, run⟩, _⟩ := works s on
        have less := fewer s.tape on start zero
        rw [more] at less
        have after : (s.onTape step).onTape total = s.onTape total :=
          State.onTape_congr (f := fun t => total (step t)) (round s.tape on zero)
        rw [← after] at later
        obtain ⟨n', again⟩ := ih (left (step s.tape)) less (s := s.onTape step) on' (kept s.tape start)
          later rfl
        exact ⟨m + n' + 1, .enter zero run again⟩

end Loops

namespace Refines

variable {cheap : Prop}

/-- An instruction does what a window does that goes on where the instruction
    leads to, or for ever where the instruction does too. -/
theorem of_yields
    (h : ∀ s, s.tape.OnTape →
      (∃ s', j.execAs f s = (s', .ok .next) ∧ Yields f c s rest s') ∨ Spins f c s) :
    Refines cheap f c (.plain j rest) := by
  intro s on n e course
  rcases h s on with ⟨s', act, yields⟩ | spins
  · rcases yields n e course with ⟨k, later, fewer⟩ | silent
    · exact ⟨k + 1, e, .next act later, .same e, fun _ => fewer⟩
    · exact ⟨0, .cut s, .cut, silent.below, fun _ => Nat.zero_le n⟩
  · exact ⟨0, .cut s, .cut, (spins n e course).below, fun _ => Nat.zero_le n⟩

/-- A window does what an instruction does that leads where the window goes on,
    or is executed for ever in the same state. -/
theorem of_reaches
    (h : ∀ s, s.tape.OnTape →
      (∃ s', j.execAs f s = (s', .ok .next) ∧ Reaches f c s rest s') ∨
        j.execAs f s = (s, .ok .again)) :
    Refines False f (.plain j rest) c := by
  intro s on n e course
  rcases h s on with ⟨s', act, reaches⟩ | act
  · rcases course.of_next act with rfl | ⟨k, rfl, later⟩
    · exact ⟨0, .cut s, .cut, .same _, False.elim⟩
    · obtain ⟨m, whole⟩ := reaches k e later
      exact ⟨m, e, whole, .same e, False.elim⟩
  · exact ⟨0, .cut s, .cut, (Spins.again act n e course).below, False.elim⟩

/-- The rounds of an instruction are those of a loop: both end at a zero cell,
    and elsewhere a round of the one is a round of the other, or neither of
    them gets any further. -/
def Rounds (f : Bool) (body : Code) (j : Instruction) : Prop :=
  ∀ s, s.tape.OnTape →
    (s.tape.cell = 0 ∧ j.execAs f s = (s, .ok .next)) ∨
    (s.tape.cell ≠ 0 ∧ ∃ s', j.execAs f s = (s', .ok .again) ∧ Passes f body s s') ∨
    (s.tape.cell ≠ 0 ∧ j.execAs f s = (s, .ok .again) ∧ Spins f body s)

theorem of_rounds (h : Rounds f body j) : Refines cheap f (.loop body rest) (.plain j rest) := by
  intro s on n e course
  generalize whole : Code.loop body rest = w at course
  induction course with
  | cut => exact ⟨0, _, .cut, .same _, fun _ => Nat.le_refl 0⟩
  | @skip _ _ s n e zero later =>
      cases whole
      rcases h s on with ⟨_, act⟩ | ⟨nonzero, _⟩ | ⟨nonzero, _⟩
      · exact ⟨n + 1, e, .next act later, .same e, fun _ => Nat.le_refl _⟩
      · exact absurd zero nonzero
      · exact absurd zero nonzero
  | @enter _ _ s s' n m e nonzero run _ _ ih =>
      cases whole
      obtain ⟨k, e', later, below, fewer⟩ := ih (run.onTape on) rfl
      rcases h s on with ⟨zero, _⟩ | ⟨_, s₁, act, passes⟩ | ⟨_, _, spins⟩
      · exact absurd zero nonzero
      · rcases passes.2 _ _ run with same | ⟨t, same, _⟩
        · cases same
          refine ⟨k, e', .again act later, below, ?_⟩
          intro h
          have := fewer h
          omega
        · cases same
      · obtain ⟨t, same, _⟩ := spins _ _ run
        cases same
  | @leave _ _ s n e nonzero run stops =>
      cases whole
      have silent : e.Silent s := by
        rcases h s on with ⟨zero, _⟩ | ⟨_, s₁, _, passes⟩ | ⟨_, _, spins⟩
        · exact absurd zero nonzero
        · rcases passes.2 _ _ run with rfl | silent
          · cases stops
          · exact silent
        · exact spins _ _ run
      exact ⟨0, .cut s, .cut, silent.below, fun _ => Nat.zero_le _⟩
  | done | next | again | trap | stop => cases whole

theorem of_rounds_back (h : Rounds f body j) :
    Refines False f (.plain j rest) (.loop body rest) := by
  intro s on n e course
  generalize whole : Code.plain j rest = w at course
  induction course with
  | cut => exact ⟨0, _, .cut, .same _, False.elim⟩
  | @next _ _ s s' n e act later =>
      cases whole
      rcases h s on with ⟨zero, act'⟩ | ⟨_, _, act', _⟩ | ⟨_, act', _⟩
      · obtain rfl : s = s' := by simpa using act'.symm.trans act
        exact ⟨n + 1, e, .skip zero later, .same e, False.elim⟩
      · simp [act] at act'
      · simp [act] at act'
  | @again _ _ s s' n e act later ih =>
      cases whole
      have kept := Instruction.onTape_of_execAs act on
      obtain ⟨m, e', run, below, _⟩ := ih kept rfl
      rcases h s on with ⟨_, act'⟩ | ⟨nonzero, _, act', ⟨k, round⟩, _⟩ | ⟨_, act', _⟩
      · simp [act] at act'
      · obtain rfl : _ = s' := by simpa using act'.symm.trans act
        exact ⟨k + m + 1, e', .enter nonzero round run, below, False.elim⟩
      · obtain rfl : s = s' := by simpa using act'.symm.trans act
        exact ⟨m, e', run, below, False.elim⟩
  | @trap _ _ s _ _ act | @stop _ _ s _ act =>
      cases whole
      rcases h s on with ⟨_, act'⟩ | ⟨_, _, act', _⟩ | ⟨_, act', _⟩ <;> simp [act] at act'
  | done | skip | enter | leave => cases whole

end Refines

end TapeLang
