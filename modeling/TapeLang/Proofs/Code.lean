import TapeLang.Proofs.Effects

/-! # Code and its courses

A program whose jumps match like brackets is a tree of loops. `Course` says what
executing such code from a state leads to: control runs through to its end, the
whole run ends inside it, or it is looked at on its way. The last case makes
courses of endless runs comparable: they have no end, but any number of cuts.

`Refines` compares two codes by their courses. It passes through instructions
and loops, so what holds of a part holds of the whole.
-/

namespace TapeLang

/-- A program with its loops visible. -/
inductive Code where
  /-- Nothing. -/
  | done
  /-- An instruction that is no jump, then the rest. -/
  | plain (i : Instruction) (rest : Code)
  /-- A loop, then the rest. -/
  | loop (body rest : Code)
  deriving Repr, DecidableEq

/-- What a course leads to. -/
inductive Upshot where
  /-- Control reached the end of the code. -/
  | through (s : State)
  /-- The whole run ended. -/
  | ended (s : State) (outcome : Except Trap Unit)
  /-- Nothing yet: the run was looked at on its way. -/
  | cut (s : State)

/-- The state and outcome of ending a run well, if the output can be flushed. -/
def State.finish (s : State) : State × Except Trap Unit :=
  match s.channels.flush with
  | (channels, some failure) => (⟨s.tape, channels⟩, .error (.io .write failure))
  | (channels, none) => (⟨s.tape, channels⟩, .ok ())

@[simp] theorem State.tape_finish (s : State) : s.finish.1.tape = s.tape := by
  unfold State.finish
  split <;> rfl

namespace Upshot

/-- The state a course leads to. -/
def state : Upshot → State
  | .through s | .ended s _ | .cut s => s

/-- Control does not go on behind the code. -/
def Stops : Upshot → Prop
  | .through _ => False
  | .ended _ _ | .cut _ => True

/-- The second ending is the first, or both are cuts and the second has seen at
    least as much happen. -/
inductive Below : Upshot → Upshot → Prop where
  | same (e : Upshot) : Below e e
  | later {s t : State} (seen : s.log <+: t.log) : Below (.cut s) (.cut t)

theorem Below.trans {a b c : Upshot} (ab : Below a b) (bc : Below b c) : Below a c := by
  cases ab with
  | same => exact bc
  | later seen =>
      cases bc with
      | same => exact .later seen
      | later more => exact .later (seen.trans more)

theorem Below.stops {a b : Upshot} (ab : Below a b) (stops : a.Stops) : b.Stops := by
  cases ab with
  | same => exact stops
  | later => trivial

theorem Below.eq_through {s : State} {b : Upshot} (ab : Below (.through s) b) :
    b = .through s := by
  cases ab
  rfl

end Upshot

/-- What executing code from a state leads to after a number of instructions.
    A loop tests the current cell before its body, whether control comes from
    before the loop or from the end of its body. -/
inductive Course (f : Bool) : Code → State → Nat → Upshot → Prop where
  | cut {c : Code} {s : State} : Course f c s 0 (.cut s)
  | done {s : State} : Course f .done s 0 (.through s)
  | next {i : Instruction} {rest : Code} {s s' : State} {n : Nat} {e : Upshot}
      (act : i.execAs f s = (s', .ok .next)) (later : Course f rest s' n e) :
      Course f (.plain i rest) s (n + 1) e
  | again {i : Instruction} {rest : Code} {s s' : State} {n : Nat} {e : Upshot}
      (act : i.execAs f s = (s', .ok .again)) (later : Course f (.plain i rest) s' n e) :
      Course f (.plain i rest) s n e
  | trap {i : Instruction} {rest : Code} {s s' : State} {t : Trap}
      (act : i.execAs f s = (s', .error t)) :
      Course f (.plain i rest) s 0 (.ended s' (.error t))
  | stop {i : Instruction} {rest : Code} {s s' : State}
      (act : i.execAs f s = (s', .ok .stop)) :
      Course f (.plain i rest) s 1 (.ended s'.finish.1 s'.finish.2)
  | skip {body rest : Code} {s : State} {n : Nat} {e : Upshot}
      (zero : s.tape.cell = 0) (later : Course f rest s n e) :
      Course f (.loop body rest) s (n + 1) e
  | enter {body rest : Code} {s s' : State} {n m : Nat} {e : Upshot}
      (nonzero : s.tape.cell ≠ 0) (round : Course f body s n (.through s'))
      (later : Course f (.loop body rest) s' m e) :
      Course f (.loop body rest) s (n + m + 1) e
  | leave {body rest : Code} {s : State} {n : Nat} {e : Upshot}
      (nonzero : s.tape.cell ≠ 0) (round : Course f body s n e) (stops : e.Stops) :
      Course f (.loop body rest) s (n + 1) e

/-- No course leaves the tape. -/
theorem Course.onTape {f : Bool} {c : Code} {s : State} {n : Nat} {e : Upshot}
    (course : Course f c s n e) (on : s.tape.OnTape) : e.state.tape.OnTape := by
  induction course with
  | cut | done => exact on
  | next act _ ih | again act _ ih => exact ih (Instruction.onTape_of_execAs act on)
  | trap act => exact Instruction.onTape_of_execAs act on
  | stop act =>
      have kept := Instruction.onTape_of_execAs act on
      simpa only [Upshot.state, State.tape_finish] using kept
  | skip _ _ ih => exact ih on
  | enter _ _ _ ihRound ihLater => exact ihLater (ihRound on)
  | leave _ _ _ ih => exact ih on

/-- A course that ran through may be looked at where it came to. -/
theorem Course.cut_of_through {f : Bool} {c : Code} {s t : State} {n : Nat}
    (course : Course f c s n (.through t)) : Course f c s n (.cut t) := by
  generalize whole : Upshot.through t = e at course
  induction course with
  | cut | trap | stop => cases whole
  | done =>
      cases whole
      exact .cut
  | next act _ ih => exact .next act (ih whole)
  | again act _ ih => exact .again act (ih whole)
  | skip zero _ ih => exact .skip zero (ih whole)
  | enter nonzero round _ _ ih => exact .enter nonzero round (ih whole)
  | leave _ _ stops _ =>
      subst whole
      cases stops

/-- Whatever the first code does from a state on the tape, the second does too,
    and if asked for with no more instructions. -/
def Refines (cheap : Prop) (f : Bool) (c c' : Code) : Prop :=
  ∀ s, s.tape.OnTape → ∀ n e, Course f c s n e →
    ∃ n' e', Course f c' s n' e' ∧ e.Below e' ∧ (cheap → n' ≤ n)

/-- A comparison of codes that passes through instructions and loops. -/
structure Precongruence (R : Code → Code → Prop) : Prop where
  refl : ∀ c, R c c
  trans : ∀ {a b c}, R a b → R b c → R a c
  plain : ∀ i {c c'}, R c c' → R (.plain i c) (.plain i c')
  loop : ∀ {b b' r r'}, R b b' → R r r' → R (.loop b r) (.loop b' r')

namespace Refines

variable {cheap : Prop} {f : Bool} {a b c c' r r' : Code}

theorem refl (c : Code) : Refines cheap f c c :=
  fun _ _ n e course => ⟨n, e, course, .same e, fun _ => Nat.le_refl n⟩

theorem trans (ab : Refines cheap f a b) (bc : Refines cheap f b c) : Refines cheap f a c := by
  intro s on n e course
  obtain ⟨n₁, e₁, course₁, below₁, fewer₁⟩ := ab s on n e course
  obtain ⟨n₂, e₂, course₂, below₂, fewer₂⟩ := bc s on n₁ e₁ course₁
  exact ⟨n₂, e₂, course₂, below₁.trans below₂, fun h => Nat.le_trans (fewer₂ h) (fewer₁ h)⟩

theorem plain (i : Instruction) (h : Refines cheap f c c') :
    Refines cheap f (.plain i c) (.plain i c') := by
  intro s on n e course
  generalize whole : Code.plain i c = w at course
  induction course with
  | cut => exact ⟨0, _, .cut, .same _, fun _ => Nat.le_refl 0⟩
  | done => cases whole
  | @next _ _ s s' n e act later _ =>
      cases whole
      have kept := Instruction.onTape_of_execAs act on
      obtain ⟨n', e', course', below, fewer⟩ := h s' kept n e later
      exact ⟨n' + 1, e', .next act course', below, fun h => Nat.succ_le_succ (fewer h)⟩
  | @again _ _ s s' n e act later ih =>
      cases whole
      have kept := Instruction.onTape_of_execAs act on
      obtain ⟨n', e', course', below, fewer⟩ := ih kept rfl
      exact ⟨n', e', .again act course', below, fewer⟩
  | trap act =>
      cases whole
      exact ⟨0, _, .trap act, .same _, fun _ => Nat.le_refl 0⟩
  | stop act =>
      cases whole
      exact ⟨1, _, .stop act, .same _, fun _ => Nat.le_refl 1⟩
  | skip | enter | leave => cases whole

theorem loop (hb : Refines cheap f b c) (hr : Refines cheap f r r') :
    Refines cheap f (.loop b r) (.loop c r') := by
  intro s on n e course
  generalize whole : Code.loop b r = w at course
  induction course with
  | cut => exact ⟨0, _, .cut, .same _, fun _ => Nat.le_refl 0⟩
  | done | next | again | trap | stop => cases whole
  | @skip _ _ s n e zero later _ =>
      cases whole
      obtain ⟨n', e', course', below, fewer⟩ := hr s on n e later
      exact ⟨n' + 1, e', .skip zero course', below, fun h => Nat.succ_le_succ (fewer h)⟩
  | @enter _ _ s s' n m e nonzero round later _ ih =>
      cases whole
      obtain ⟨n', e₁, round', below₁, fewer₁⟩ := hb s on n _ round
      obtain rfl := below₁.eq_through
      obtain ⟨m', e', later', below, fewer⟩ := ih (round.onTape on) rfl
      refine ⟨n' + m' + 1, e', .enter nonzero round' later', below, ?_⟩
      intro h
      have := fewer₁ h
      have := fewer h
      omega
  | @leave _ _ s n e nonzero round stops _ =>
      cases whole
      obtain ⟨n', e', round', below, fewer⟩ := hb s on n e round
      exact ⟨n' + 1, e', .leave nonzero round' (below.stops stops), below,
        fun h => Nat.succ_le_succ (fewer h)⟩

theorem precongruence (cheap : Prop) (f : Bool) : Precongruence (Refines cheap f) :=
  ⟨refl, trans, fun i _ _ => plain i, loop⟩

end Refines

end TapeLang
