import TapeLang.Proofs.BodySizes

/-! # Instruction counts

The optimizer never costs instructions. On the tape that is part of what a
fusion keeps, but a run may start off the tape. There it goes on only while it
touches no cell, until it moves onto the tape or ends. No window is passed
there: each touches a cell first, or clears an area, and no block has areas.

An area that reaches around the tape touches no cell either, so what happens to
areas off the tape is left out of `Roams`.
-/

namespace TapeLang

/-- The instruction clears an area. -/
def Instruction.ClearsArea (i : Instruction) : Prop :=
  i.op = .zerol ∨ i.op = .zeror

section Astray

variable {s : State} {i : Instruction}

theorem State.touching_astray (off : ¬ s.tape.OnTape) (act : State → State × Except Trap Control) :
    s.touching s.tape.ptr act = (s, .error (.fault (.index s.tape.ptr s.tape.size))) := by
  have faults : s.tape.fault? s.tape.ptr = some (.index s.tape.ptr s.tape.size) := if_neg off
  rw [touching, faults]

/-- Off the tape, an instruction that does not trap goes on or halts. -/
theorem Instruction.leads_exec_astray {P : Control → Prop} (off : ¬ s.tape.OnTape) (next : P .next)
    (stop : i.op = .halt → P .stop) : State.Leads P (i.exec s) := by
  have touched : ∀ act, State.Leads P (s.touching s.tape.ptr act) := by
    intro act
    rw [State.touching_astray off]
    exact State.leads_error
  have whileCell : ∀ round, State.Leads P (s.whileCell round) := fun round => touched _
  have pourTo : ∀ target, State.Leads P (s.pourTo target) := fun target =>
    State.leads_touching (touched _)
  have clearArea : ∀ n clear, State.Leads P (s.clearArea n clear) := by
    intro n clear
    unfold State.clearArea
    split
    · exact touched _
    · exact State.leads_ok next
  obtain ⟨op, n, m⟩ := i
  cases op with
  | halt => exact State.leads_ok (stop rfl)
  | right | left => exact State.leads_ok next
  | add | jez | jnz | zero => exact touched _
  | searchl | searchr | mandel => exact whileCell _
  | amovel | amover => exact pourTo _
  | zerol | zeror => exact clearArea _ _
  | write =>
      intro control ok
      rwa [State.leads_write s control ok]
  | read =>
      intro control ok
      rwa [State.leads_read s control ok]
  | unassigned => exact State.leads_error

end Astray

/-! ## Courses from anywhere -/

/-- What executing code leads to, on the tape or off it, as long as no area is
    cleared off the tape. -/
inductive Roams : Code → State → Nat → Upshot → Prop where
  | onTape {c : Code} {s : State} {n : Nat} {e : Upshot} (on : s.tape.OnTape)
      (course : Course false c s n e) : Roams c s n e
  | done {s : State} (off : ¬ s.tape.OnTape) : Roams .done s 0 (.through s)
  | next {i : Instruction} {rest : Code} {s s' : State} {n : Nat} {e : Upshot}
      (off : ¬ s.tape.OnTape) (noArea : ¬ i.ClearsArea) (act : i.exec s = (s', .ok .next))
      (later : Roams rest s' n e) : Roams (.plain i rest) s (n + 1) e
  | halt {i : Instruction} {rest : Code} {s : State} (off : ¬ s.tape.OnTape)
      (halts : i.op = .halt) : Roams (.plain i rest) s 1 (.ended s.finish.1 s.finish.2)

/-- From anywhere, the second code does what the first does with no more
    instructions. -/
structure Saves (c c' : Code) : Prop where
  refines : Refines True false c c'
  roams : ∀ {s n e}, Roams c s n e → ∃ n' e', Roams c' s n' e' ∧ e.Below e' ∧ n' ≤ n

namespace Saves

variable {a b c c' : Code} {s : State} {n : Nat} {e : Upshot}

theorem roams_onTape (refines : Refines True false c c') (on : s.tape.OnTape)
    (course : Course false c s n e) : ∃ n' e', Roams c' s n' e' ∧ e.Below e' ∧ n' ≤ n := by
  obtain ⟨n', e', course', below, fewer⟩ := refines s on n e course
  exact ⟨n', e', .onTape on course', below, fewer trivial⟩

/-- Code that is passed on the tape alone need not be compared off it. -/
theorem of_onTape (refines : Refines True false c c')
    (onTape : ∀ {s n e}, Roams c s n e → s.tape.OnTape) : Saves c c' where
  refines := refines
  roams roams := by
    cases roams with
    | onTape on course => exact roams_onTape refines on course
    | done off => exact absurd (onTape (.done off)) off
    | next off noArea act later => exact absurd (onTape (.next off noArea act later)) off
    | halt off halts => exact absurd (onTape (.halt off halts)) off

theorem refl (c : Code) : Saves c c :=
  ⟨.refl c, fun roams => ⟨_, _, roams, .same _, Nat.le_refl _⟩⟩

theorem trans (ab : Saves a b) (bc : Saves b c) : Saves a c where
  refines := ab.refines.trans bc.refines
  roams roams := by
    obtain ⟨n₁, e₁, roams₁, below₁, fewer₁⟩ := ab.roams roams
    obtain ⟨n₂, e₂, roams₂, below₂, fewer₂⟩ := bc.roams roams₁
    exact ⟨n₂, e₂, roams₂, below₁.trans below₂, Nat.le_trans fewer₂ fewer₁⟩

theorem plain (i : Instruction) (later : Saves c c') : Saves (.plain i c) (.plain i c') where
  refines := later.refines.plain i
  roams roams := by
    cases roams with
    | onTape on course => exact roams_onTape (later.refines.plain i) on course
    | next off noArea act rest =>
        obtain ⟨n', e', roams', below, fewer⟩ := later.roams rest
        exact ⟨n' + 1, e', .next off noArea act roams', below, Nat.succ_le_succ fewer⟩
    | halt off halts => exact ⟨1, _, .halt off halts, .same _, Nat.le_refl 1⟩

theorem loop {r r' : Code} (inside : Saves b c) (later : Saves r r') :
    Saves (.loop b r) (.loop c r') := by
  apply of_onTape (inside.refines.loop later.refines)
  rintro s n e ⟨on, _⟩
  exact on

theorem precongruence : Precongruence Saves :=
  ⟨refl, trans, fun i _ _ => plain i, loop⟩

end Saves

section Fusing

variable {c c' rest : Code} {s : State} {n : Nat} {e : Upshot}

theorem Roams.onTape_of_zero (roams : Roams (.plain .zero rest) s n e) : s.tape.OnTape := by
  cases roams with
  | onTape on _ => exact on
  | next off _ act _ =>
      have traps := State.touching_astray off fun s => (s.onTape (·.setCell 0), .ok .next)
      cases traps.symm.trans act
  | halt _ halts => cases halts

theorem Roams.onTape_of_clearsArea {i : Instruction} (clears : i.ClearsArea)
    (roams : Roams (.plain i rest) s n e) : s.tape.OnTape := by
  cases roams with
  | onTape on _ => exact on
  | next _ noArea _ _ => exact absurd clears noArea
  | halt _ halts => simp [Instruction.ClearsArea, halts] at clears

/-- No window is passed off the tape. -/
theorem Code.Fusion.onTape_of_roams (fusion : Code.Fusion c c') (roams : Roams c s n e) :
    s.tape.OnTape := by
  cases fusion with
  | clear | searchRight | searchLeft | takeGive | giveTake | mandel =>
      cases roams with
      | onTape on _ => exact on
  | zeroZero | zeroRight | zeroLeft => exact roams.onTape_of_zero
  | mergeRight => exact roams.onTape_of_clearsArea (.inr rfl)
  | mergeLeft => exact roams.onTape_of_clearsArea (.inl rfl)

theorem Fuses.saves (fuses : Fuses c c') : Saves c c' :=
  fuses.lift Saves.precongruence fun fusion =>
    .of_onTape (fusion.fused.forth false) fusion.onTape_of_roams

end Fusing

/-! ## Runs from anywhere -/

/-- No area is cleared outside of the loops. -/
def Code.NoAreas : Code → Prop
  | .done => True
  | .plain i rest => ¬ i.ClearsArea ∧ rest.NoAreas
  | .loop _ rest => rest.NoAreas

section Running

variable {program : Program} {c : Code} {k m n j : Nat} {s s' : State} {e : Upshot} {last : Machine}

open Machine (amid stepAs stepAs_amid Gets)

/-- A machine roams where the code of its program does. -/
theorem Roams.gets (roams : Roams c s n e) (placed : Placed program c k) :
    Gets false (amid program k m s) (k + c.length) n e := by
  induction roams generalizing k m with
  | onTape on course => exact course.gets placed .front on
  | done => exact ⟨0, rfl⟩
  | @next i rest s s' n e _ _ act _ ih =>
      obtain ⟨found, _, later⟩ := placed.of_plain
      have gets := ih (m := m + 1) later
      rw [Code.length, Nat.add_comm rest.length, ← Nat.add_assoc]
      exact gets.of_step (by rw [stepAs_amid found, Instruction.execAs_false, act])
  | @halt i rest s _ halts =>
      have found := placed.of_plain.1
      have act : i.exec s = (s, .ok .stop) := by simp only [Instruction.exec, halts]
      have ends : stepAs false (amid program k m s) = (amid program k (m + 1) s).finish := by
        rw [stepAs_amid found, Instruction.execAs_false, act]
      rw [Machine.finish_eq] at ends
      exact ⟨1, _, _, follow_ended ends 0, rfl, rfl, Outcome.verdict_mapError ..⟩

theorem Outcome.eq_ok_of_verdict {outcome : Outcome} (judged : outcome.verdict = .ok ()) :
    outcome = .ok () := by
  cases outcome with
  | error => cases judged
  | ok => rfl

theorem Outcome.eq_ok_of_mapError {pc : Address} {verdict : Except Trap Unit}
    (judged : verdict.mapError (Trap.toError pc) = .ok ()) : verdict = .ok () := by
  rw [← Outcome.verdict_mapError pc verdict, judged]
  rfl

/-- How a run that ends well passes code that ends at index `stop`: it ends
    within the code, or goes on from there. -/
inductive Machine.WellPassed (program : Program) (c : Code) (s : State) (m stop : Nat)
    (last : Machine) : Prop where
  | within {n : Nat} (roams : Roams c s n (.ended last.state (.ok ()))) (count : last.count = m + n)
  | beyond {n j : Nat} {s' : State} (roams : Roams c s n (.through s'))
      (later : follow (stepAs false) j (amid program stop (m + n) s') = (last, some (.ok ())))

open Machine (WellPassed)

theorem Placed.wellPassed_onTape (placed : Placed program c k) (on : s.tape.OnTape)
    (run : follow (stepAs false) j (amid program k m s) = (last, some (.ok ()))) :
    WellPassed program c s m (k + c.length) last := by
  cases placed.passage .front on run with
  | within course count => exact .within (.onTape on course) count
  | beyond course _ later => exact .beyond (.onTape on course) later

/-- A loop tests its cell first, so no run that ends well comes to it off the
    tape. -/
theorem Placed.onTape_of_loop {body rest : Code} (placed : Placed program (.loop body rest) k)
    (run : follow (stepAs false) j (amid program k m s) = (last, some (.ok ()))) :
    s.tape.OnTape := by
  cases j with
  | zero => cases run
  | succ j =>
      cases placed with
      | @loop o _ _ _ _ found opens =>
          by_contra off
          have traps : o.exec s = (s, .error (.fault (.index s.tape.ptr s.tape.size))) := by
            simp only [Instruction.exec, opens, State.touching_astray off]
          have step := stepAs_amid (f := false) (n := m) (s := s) found
          rw [Instruction.execAs_false, traps] at step
          cases (follow_ended step j).symm.trans run

/-- A run that ends well roams as the code of its program does. -/
theorem Placed.wellPassed (placed : Placed program c k) (noAreas : c.NoAreas)
    (run : follow (stepAs false) j (amid program k m s) = (last, some (.ok ()))) :
    WellPassed program c s m (k + c.length) last := by
  -- Off the tape control goes straight on, so the rest of the code decides.
  induction c generalizing k m s j with
  | done =>
      by_cases on : s.tape.OnTape
      · exact placed.wellPassed_onTape on run
      · exact .beyond (.done on) run
  | loop body rest => exact placed.wellPassed_onTape (placed.onTape_of_loop run) run
  | plain i rest ih =>
      by_cases on : s.tape.OnTape
      · exact placed.wellPassed_onTape on run
      obtain ⟨found, _, placed⟩ := placed.of_plain
      obtain ⟨noArea, noAreas⟩ := noAreas
      have leads : State.Leads (fun control => control = .next ∨ control = .stop ∧ i.op = .halt)
          (i.exec s) := Instruction.leads_exec_astray on (.inl rfl) fun halts => .inr ⟨rfl, halts⟩
      have step := stepAs_amid (f := false) (n := m) (s := s) found
      rw [Instruction.execAs_false] at step
      obtain _ | j := j
      · cases run
      rcases act : i.exec s with ⟨s', t | control⟩
      · rw [act] at step
        cases (follow_ended step j).symm.trans run
      rcases leads control (by rw [act]) with rfl | ⟨rfl, halts⟩
      · rw [act] at step
        rw [follow_succ step] at run
        have stop : k + (Code.plain i rest).length = k + 1 + rest.length := by
          rw [Code.length]
          omega
        rw [stop]
        cases ih placed noAreas run with
        | @within n roams count =>
            exact .within (.next on noArea act roams) (by rw [count]; omega)
        | @beyond n _ _ roams later =>
            rw [Nat.add_assoc m, Nat.add_comm 1 n] at later
            exact .beyond (.next on noArea act roams) later
      · obtain rfl := Instruction.exec_stop act
        rw [act] at step
        rw [follow_ended (step.trans (Machine.finish_eq _))] at run
        obtain ⟨rfl, judged⟩ := Prod.mk.inj run
        have flushed := Outcome.eq_ok_of_mapError (Option.some.inj judged)
        have roams : Roams (.plain i rest) s' 1 _ := .halt on halts
        rw [flushed] at roams
        exact .within roams rfl

/-- Executing the code ends the run well: within the code, or behind it once the
    output has been flushed. -/
inductive Code.EndsWell (c : Code) (s : State) (n : Nat) (s' : State) : Prop where
  | within (roams : Roams c s n (.ended s' (.ok ())))
  | behind {t : State} (roams : Roams c s n (.through t)) (flushed : t.finish = (s', .ok ()))

theorem Saves.endsWell {c' : Code} (saves : Saves c c') (ends : c.EndsWell s n s') :
    ∃ n', c'.EndsWell s n' s' ∧ n' ≤ n := by
  cases ends with
  | within roams =>
      obtain ⟨n', _, roams', below, fewer⟩ := saves.roams roams
      cases below
      exact ⟨n', .within roams', fewer⟩
  | behind roams flushed =>
      obtain ⟨n', _, roams', below, fewer⟩ := saves.roams roams
      cases below
      exact ⟨n', .behind roams' flushed, fewer⟩

theorem Layout.endsWell_of_run (linked : Linked c program.toList) (noAreas : c.NoAreas)
    {limit : Nat} (run : Machine.run limit { program, state := s } = some (last, .ok ())) :
    c.EndsWell s last.count last.state := by
  rw [Machine.run, Machine.resume_eq_some_iff, ← Machine.stepAs_false] at run
  cases linked.placed_whole.wellPassed noAreas run with
  | within roams count =>
      rw [Nat.zero_add] at count
      exact .within (count ▸ roams)
  | @beyond n j t roams later =>
      obtain _ | j := j
      · cases later
      rw [follow_ended linked.stepAs_behind] at later
      obtain ⟨rfl, judged⟩ := Prod.mk.inj later
      have flushed := Outcome.eq_ok_of_mapError (Option.some.inj judged)
      exact .behind ((Nat.zero_add n).symm ▸ roams) (Prod.ext rfl flushed)

theorem Layout.exists_run_of_endsWell (linked : Linked c program.toList)
    (ends : c.EndsWell s n s') :
    ∃ limit last, Machine.run limit { program, state := s } = some (last, .ok ()) ∧
      last.state = s' ∧ last.count = n := by
  simp only [Machine.run, Machine.resume_eq_some_iff, ← Machine.stepAs_false]
  cases ends with
  | within roams =>
      obtain ⟨j, last, outcome, run, same, count, judged⟩ := roams.gets (m := 0) linked.placed_whole
      obtain rfl := Outcome.eq_ok_of_verdict judged
      exact ⟨j, last, run, same, by rw [count, Nat.zero_add]⟩
  | @behind t roams flushed =>
      obtain ⟨j, way⟩ := roams.gets (m := 0) linked.placed_whole
      have run := follow_add way 1
      rw [follow_ended linked.stepAs_behind, flushed] at run
      exact ⟨j + 1, _, run, rfl, Nat.zero_add n⟩

end Running

/-! ## Blocks -/

section Blocks

variable {is : List Instruction} {c : Code}

theorem Emitted.not_clearsArea {i : Instruction} (emitted : Emitted i) : ¬ i.ClearsArea := by
  cases emitted <;> rintro (clears | clears) <;> cases clears

theorem Code.NoAreas.line (emitted : ∀ i ∈ is, Emitted i) (later : c.NoAreas) :
    (Code.line is c).NoAreas := by
  induction is with
  | nil => exact later
  | cons i is ih =>
      rw [List.forall_mem_cons] at emitted
      exact ⟨emitted.1.not_clearsArea, ih emitted.2⟩

/-- Commands clear no areas. -/
theorem Block.noAreas_foldedAfter (p : Pending) (b : Block) : (b.foldedAfter p).NoAreas := by
  induction b generalizing p with
  | empty => exact .line p.emit_emitted trivial
  | loop body rest _ ihRest => exact .line p.emit_emitted (ihRest .idle)
  | command command rest ih =>
      rw [foldedAfter]
      split
      · next taken => exact .line (Pending.take_emitted taken) (ih _)
      · next refused =>
          cases command with
          | unknown =>
              rw [Code.line_append]
              refine .line p.emit_emitted ⟨?_, ih .idle⟩
              rintro (clears | clears) <;> cases clears
          | inc | dec | right | left =>
              cases p <;> cases refused
          | output | input | halt => cases refused

end Blocks

/-- The optimizer never costs instructions: where the unoptimized program of a
    block ends well, so does the optimized one, in the same state and with no
    more instructions, wherever the pointer starts. -/
theorem Block.optimizing_never_costs_instructions {b : Block} {fixpoint : Bool} {l : Lowered}
    (ok : b.lower ⟨false, fixpoint⟩ = .ok l) (fixpoint' : Bool) :
    ∃ l', b.lower ⟨true, fixpoint'⟩ = .ok l' ∧ ∀ s limit last,
      Machine.run limit { program := l.code, state := s } = some (last, .ok ()) →
        ∃ limit' last',
          Machine.run limit' { program := l'.code, state := s } = some (last', .ok ()) ∧
            last'.state = last.state ∧ last'.count ≤ last.count := by
  obtain ⟨l', ok'⟩ := exists_lower_of_plain ⟨true, fixpoint'⟩ rfl ok
  refine ⟨l', ok', fun s limit last run => ?_⟩
  obtain ⟨c, linked, _, literally⟩ := lower_spells ok
  obtain rfl := literally rfl
  obtain ⟨c', linked', fuses, _⟩ := lower_spells ok'
  have ends := linked.endsWell_of_run (b.noAreas_foldedAfter .idle) run
  obtain ⟨n', ends', fewer⟩ := fuses.saves.endsWell ends
  obtain ⟨limit', last', run', same, count⟩ := linked'.exists_run_of_endsWell ends'
  exact ⟨limit', last', run', same, count ▸ fewer⟩

/-- Move onto the tape, count to two there and back, and halt: `>++[-]` and a
    halt. -/
def Block.countdown : Block :=
  .command .right (.command .inc (.command .inc
    (.loop (.command .dec .empty) (.command .halt .empty))))

/-- Two blank cells, and the pointer before the first. -/
def State.beforeTwoCells : State :=
  ⟨⟨#[0, 0], -1, by decide, by decide⟩, {}⟩

theorem Block.optimizing_never_costs_instructions_countdown : ∃ l l' last limit' last',
    Block.countdown.lower ⟨false, false⟩ = .ok l ∧ Block.countdown.lower ⟨true, true⟩ = .ok l' ∧
    l.code = #[.right 1, .add 2, .jez 2, .add 255, .jnz 2, .halt] ∧
    ¬ State.beforeTwoCells.tape.OnTape ∧
    Machine.run 40 { program := l.code, state := .beforeTwoCells } = some (last, .ok ()) ∧
    Machine.run limit' { program := l'.code, state := .beforeTwoCells } = some (last', .ok ()) ∧
    last'.state = last.state ∧ last.count = 8 ∧ last'.count ≤ 8 := by
  have code : (Block.countdown.lower ⟨false, false⟩).map (·.code) =
      .ok #[.right 1, .add 2, .jez 2, .add 255, .jnz 2, .halt] := by decide +kernel
  have ended : (Machine.run 40 (⟨#[.right 1, .add 2, .jez 2, .add 255, .jnz 2, .halt], ⟨0⟩, 0,
      .beforeTwoCells⟩ : Machine)).map (fun r => (r.1.count, r.2)) = some (8, .ok ()) := by
    decide +kernel
  obtain ⟨tallies, ok⟩ := Lowered.exists_of_code code
  obtain ⟨⟨last, _⟩, run, same⟩ := Option.map_eq_some_iff.mp ended
  obtain ⟨count, rfl⟩ := Prod.mk.inj same
  obtain ⟨l', ok', saves⟩ := optimizing_never_costs_instructions ok true
  obtain ⟨limit', last', run', same, fewer⟩ := saves _ _ last run
  exact ⟨_, l', last, limit', last', ok, ok', rfl, by decide, run, run', same, count, count ▸ fewer⟩

end TapeLang
