import TapeLang.Compile
import TapeLang.Proofs.Folding

/-! # What compiling preserves

A program does whatever the block it was made from does: it ends as the walk
through the block does, and if the walk does not end, it sees all that happens
on the walk. The optimizer does the same for every linked program.

Programs that were not optimized do nothing else. An optimized program may end
where the walk does not: exactly if it comes to pour a cell onto itself, which
a fused move or diffusion does on a tape that its distance turns around.
-/

namespace TapeLang

theorem Refines.weaken {f : Bool} {c c' : Code} (h : Refines True f c c') : Refines False f c c' := by
  intro s on n e course
  obtain ⟨n', e', course', below, _⟩ := h s on n e course
  exact ⟨n', e', course', below, False.elim⟩

/-- What is seen of code is seen of code that refines it. -/
theorem Refines.cut {cheap : Prop} {f : Bool} {c c' : Code} (h : Refines cheap f c c')
    {s t : State} {n : Nat} (on : s.tape.OnTape) (course : Course f c s n (.cut t)) :
    ∃ n' t', Course f c' s n' (.cut t') ∧ t.log <+: t'.log := by
  obtain ⟨n', e', course', below, _⟩ := h s on n _ course
  cases below with
  | same => exact ⟨n', t, course', List.prefix_refl _⟩
  | @later _ t' seen => exact ⟨n', t', course', seen⟩

section Lowering

variable {how : Lowering} {b : Block} {l : Lowered} {s s' : State} {verdict : Except Trap Unit}

/-- The program of a block refines it. -/
theorem Block.exists_refinement (ok : b.lower how = .ok l) :
    ∃ c, Linked c l.code.toList ∧ Refines False false b.code c := by
  obtain ⟨c, linked, fuses, _⟩ := lower_spells ok
  exact ⟨c, linked, (b.agree_folded false).1.trans (fuses.forth false).weaken⟩

theorem Layout.ends_of_refines {c d : Code} {program : Program} (linked : Linked d program.toList)
    (refines : Refines False false c d) (on : s.tape.OnTape) {n : Nat}
    (ends : c.Ends false s n s' verdict) : program.Ends s s' verdict := by
  obtain ⟨n', ends', _⟩ := refines.ends on ends
  exact Program.ends_iff.mpr ⟨n', (linked.endsAs_iff on).mpr ends'⟩

theorem Block.ends_lower (ok : b.lower how = .ok l) (on : s.tape.OnTape)
    (ends : b.Ends s s' verdict) : Program.Ends l.code s s' verdict := by
  obtain ⟨c, linked, refines⟩ := exists_refinement ok
  obtain ⟨n, ends⟩ := (ends_iff on).mp ends
  exact linked.ends_of_refines refines on ends

/-- What is seen on a walk is seen on a run of the program. -/
theorem Block.seen_lower (ok : b.lower how = .ok l) (on : s.tape.OnTape) (k : Nat) :
    ∃ j, (follow Walk.step k { block := b, state := s }).1.state.log <+:
      (follow Machine.step j { program := l.code, state := s }).1.state.log := by
  rcases walk : follow Walk.step k { block := b, state := s } with ⟨w, _ | verdict⟩
  · obtain ⟨c, linked, refines⟩ := exists_refinement ok
    obtain ⟨n, course⟩ := Walk.exists_course on walk
    obtain ⟨n', t, course', seen⟩ := refines.cut on course
    obtain ⟨j, m, run, rfl⟩ := linked.exists_follow_of_cut on course'
    rw [Machine.stepAs_false] at run
    exact ⟨j, run ▸ seen⟩
  · have ends : b.Ends s w.state verdict := ⟨k, w, Walk.run_eq_some_iff.mpr walk, rfl⟩
    obtain ⟨limit, m, outcome, run, same, _⟩ := ends_lower ok on ends
    rw [Machine.run, Machine.resume_eq_some_iff] at run
    exact ⟨limit, run ▸ same ▸ List.prefix_refl _⟩

/-- Without the optimizer, a program does nothing that the walk does not. -/
theorem Block.ends_of_plain (off : how.peephole = false) (ok : b.lower how = .ok l)
    (on : s.tape.OnTape) (ends : Program.Ends l.code s s' verdict) : b.Ends s s' verdict := by
  obtain ⟨c, linked, _, literally⟩ := lower_spells ok
  obtain ⟨n, ends⟩ := Program.ends_iff.mp ends
  rw [linked.endsAs_iff on, literally off] at ends
  obtain ⟨n', ends', _⟩ := (b.agree_folded false).2.ends on ends
  exact (ends_iff on).mpr ⟨n', ends'⟩

/-- A walk ends exactly if the run does and never pours a cell onto itself. -/
theorem Block.ends_iff_never_pours (ok : b.lower how = .ok l) (on : s.tape.OnTape) :
    b.Ends s s' verdict ↔ Program.Ends l.code s s' verdict ∧
      Machine.NeverPoursOntoItself { program := l.code, state := s } := by
  obtain ⟨c, linked, fuses, _⟩ := lower_spells ok
  rw [← Program.exists_endsAs_true_iff, ends_iff (f := true) on]
  simp only [linked.endsAs_iff on]
  constructor
  · rintro ⟨n, ends⟩
    obtain ⟨n', ends', _⟩ := ((b.agree_folded true).1.trans (fuses.forth true).weaken).ends on ends
    exact ⟨n', ends'⟩
  · rintro ⟨n, ends⟩
    obtain ⟨n', ends', _⟩ := (fuses.back.trans (b.agree_folded true).2).ends on ends
    exact ⟨n', ends'⟩

end Lowering

/-! ## Blocks and their programs -/

/-- Compiling preserves meaning: a walk that ends is a run that ends in the same
    state and way, and of any walk all that happens on the channels happens on
    the run. -/
theorem Block.lower_refines {how : Lowering} {b : Block} {l : Lowered} {s : State}
    (ok : b.lower how = .ok l) (on : s.tape.OnTape) :
    (∀ s' verdict, b.Ends s s' verdict → Program.Ends l.code s s' verdict) ∧
      ∀ k, ∃ j, (follow Walk.step k { block := b, state := s }).1.state.log <+:
        (follow Machine.step j { program := l.code, state := s }).1.state.log :=
  ⟨fun _ _ => ends_lower ok on, seen_lower ok on⟩

/-- Read a cell, move it to the right and write it there. -/
def Block.relay : Block :=
  .command .input (.loop (.command .dec (.command .right (.command .inc (.command .left .empty))))
    (.command .right (.command .output (.command .halt .empty))))

/-- Three blank cells, one byte of input, and an output. -/
def State.relayed : State :=
  ⟨.blank 3 (by decide) (by decide),
    { input := .single ⟨0, [⟨[5], .more⟩], false⟩, output := some {} }⟩

theorem Block.relay_ends : ∃ s', Block.relay.Ends .relayed s' (.ok ()) := by
  have ended : (Walk.run 40 { block := relay, state := .relayed }).map (·.2) = some (.ok ()) := by
    decide +kernel
  obtain ⟨⟨last, _⟩, run, rfl⟩ := Option.map_eq_some_iff.mp ended
  exact ⟨last.state, 40, last, run, rfl⟩

theorem Block.lower_refines_relay : ∃ l s', Block.relay.lower {} = .ok l ∧
    l.code = #[.read, .amover 1, .right 1, .write, .halt] ∧ State.relayed.tape.OnTape ∧
    Block.relay.Ends .relayed s' (.ok ()) ∧ Program.Ends l.code .relayed s' (.ok ()) ∧
    ∀ k, ∃ j, (follow Walk.step k { block := relay, state := .relayed }).1.state.log <+:
      (follow Machine.step j { program := l.code, state := .relayed }).1.state.log := by
  have code : (Block.relay.lower {}).map (·.code) =
      .ok #[.read, .amover 1, .right 1, .write, .halt] := by decide +kernel
  have on : State.relayed.tape.OnTape := by decide
  obtain ⟨tallies, ok⟩ := Lowered.exists_of_code code
  obtain ⟨s', ends⟩ := relay_ends
  obtain ⟨same, seen⟩ := lower_refines ok on
  exact ⟨_, s', ok, rfl, on, ends, same s' _ ends, seen⟩

/-- Without the optimizer, a run ends exactly if the walk does, in the same
    state and way. -/
theorem Block.ends_iff_lowered_ends {how : Lowering} {b : Block} {l : Lowered} {s : State}
    (off : how.peephole = false) (ok : b.lower how = .ok l) (on : s.tape.OnTape) (s' : State)
    (verdict : Except Trap Unit) : b.Ends s s' verdict ↔ Program.Ends l.code s s' verdict :=
  ⟨ends_lower ok on, ends_of_plain off ok on⟩

theorem Block.ends_iff_lowered_ends_relay : ∃ l s', Block.relay.lower ⟨false, false⟩ = .ok l ∧
    l.code = #[.read, .jez 5, .add 255, .right 1, .add 1, .left 1, .jnz 5, .right 1, .write, .halt] ∧
    State.relayed.tape.OnTape ∧ Block.relay.Ends .relayed s' (.ok ()) ∧
    Program.Ends l.code .relayed s' (.ok ()) := by
  have code : (Block.relay.lower ⟨false, false⟩).map (·.code) = .ok #[.read, .jez 5, .add 255,
      .right 1, .add 1, .left 1, .jnz 5, .right 1, .write, .halt] := by decide +kernel
  have on : State.relayed.tape.OnTape := by decide
  obtain ⟨tallies, ok⟩ := Lowered.exists_of_code code
  obtain ⟨s', ends⟩ := relay_ends
  exact ⟨_, s', ok, rfl, on, ends, (ends_iff_lowered_ends rfl ok on s' _).mp ends⟩

/-! ## Linked programs and the optimizer -/

/-- The optimizer preserves the behaviour of every linked program. -/
theorem Program.ends_optimize (fixpoint : Bool) {p : Program} {s s' : State}
    {verdict : Except Trap Unit} (linked : p.WellLinked) (on : s.tape.OnTape)
    (ends : p.Ends s s' verdict) : Program.Ends (Peephole.optimize fixpoint p).1 s s' verdict := by
  obtain ⟨c, linked⟩ := linked
  obtain ⟨c', fuses, linked'⟩ := Peephole.optimize_fuses fixpoint linked
  obtain ⟨n, ends⟩ := Program.ends_iff.mp ends
  exact linked'.ends_of_refines (fuses.forth false).weaken on ((linked.endsAs_iff on).mp ends)

/-- An opcode that names no operation. -/
def Opcode.stray : Opcode :=
  .unassigned ⟨3, by decide⟩

/-- A loop, moves that go nowhere, and an opcode that names no operation. -/
def Program.stray : Program :=
  #[.add 9, .jez 2, .add 255, .jnz 2, ⟨.amover, 0, 7⟩, ⟨.zeror, 0, 0⟩, ⟨.stray, 1, 2⟩]

theorem Program.ends_optimize_stray : ∃ s s', Program.stray.WellLinked ∧ s.tape.OnTape ∧
    Program.stray.Ends s s' (.error (.invalid .stray)) ∧
    (Peephole.optimize true Program.stray).1 =
      #[.add 9, .zero, ⟨.amover, 0, 7⟩, ⟨.zeror, 0, 0⟩, ⟨.stray, 1, 2⟩] ∧
    Program.Ends (Peephole.optimize true Program.stray).1 s s' (.error (.invalid .stray)) := by
  let s : State := ⟨.blank 2 (by decide) (by decide), {}⟩
  have linked : Program.stray.WellLinked :=
    ⟨_, .plain (by decide) (.loop rfl (.plain (by decide) .done) rfl (.plain (by decide)
      (.plain (by decide) (.plain (by decide) .done))) rfl rfl)⟩
  have on : s.tape.OnTape := by decide
  have ended : (Machine.run 40 { program := Program.stray, state := s }).map
      (fun r => Outcome.verdict r.2) = some (.error (.invalid .stray)) := by decide +kernel
  obtain ⟨⟨last, outcome⟩, run, judged⟩ := Option.map_eq_some_iff.mp ended
  have ends : Program.stray.Ends s last.state _ := ⟨40, last, outcome, run, rfl, judged⟩
  exact ⟨s, last.state, linked, on, ends, by decide +kernel, ends_optimize true linked on ends⟩

/-! ## Sources and their two programs -/

section Compiling

variable {off how : Lowering} {name : String} {chunks : List Chunk} {l l' : Lowered}
  {s s' : State} {verdict : Except Trap Unit}

theorem exists_block_of_compile (ok : compile how name chunks = .ok l) :
    ∃ b, Block.parse name chunks = .ok b ∧ b.lower how = .ok l := by
  unfold compile at ok
  split at ok
  · cases ok
  · next b parsed =>
      split at ok
      · cases ok
      · next lowered =>
          cases ok
          exact ⟨b, parsed, lowered⟩

/-- The unoptimized program of a source ends exactly if the optimized one does
    and never pours a cell onto itself. -/
theorem plain_ends_iff_fused_ends (plain : off.peephole = false)
    (unfused : compile off name chunks = .ok l) (fused : compile how name chunks = .ok l')
    (on : s.tape.OnTape) : Program.Ends l.code s s' verdict ↔
      Program.Ends l'.code s s' verdict ∧
        Machine.NeverPoursOntoItself { program := l'.code, state := s } := by
  obtain ⟨b, parsed, lowered⟩ := exists_block_of_compile unfused
  obtain ⟨b', parsed', lowered'⟩ := exists_block_of_compile fused
  obtain rfl : b = b' := by simpa [parsed] using parsed'
  rw [← Block.ends_iff_never_pours lowered' on]
  exact ⟨Block.ends_of_plain plain lowered on, Block.ends_lower lowered on⟩

/-- Make a cell one and move it to the right: `+[->+<]`. -/
def Chunk.move : Chunk :=
  ⟨[43, 91, 45, 62, 43, 60, 93], .more⟩

/-- Two blank cells. -/
def State.twoCells : State :=
  ⟨.blank 2 (by decide) (by decide), {}⟩

/-- One blank cell, which is its own neighbour. -/
def State.oneCell : State :=
  ⟨.blank 1 (by decide) (by decide), {}⟩

/-- What is made of it without the optimizer. -/
def Program.plainMove : Program :=
  #[.add 1, .jez 5, .add 255, .right 1, .add 1, .left 1, .jnz 5, .halt]

/-- What the optimizer makes of it. -/
def Program.fusedMove : Program :=
  #[.add 1, .amover 1, .halt]

theorem compile_move_plain :
    ∃ tallies, compile ⟨false, true⟩ "" [.move] = .ok ⟨Program.plainMove, tallies⟩ :=
  Lowered.exists_of_code (by decide +kernel)

theorem compile_move_fused :
    ∃ tallies, compile ⟨true, true⟩ "" [.move] = .ok ⟨Program.fusedMove, tallies⟩ :=
  Lowered.exists_of_code (by decide +kernel)

theorem plain_ends_iff_fused_ends_twoCells : ∃ l l' s', compile ⟨false, true⟩ "" [.move] = .ok l ∧
    compile ⟨true, true⟩ "" [.move] = .ok l' ∧ State.twoCells.tape.OnTape ∧
    Program.Ends l.code .twoCells s' (.ok ()) ∧ Program.Ends l'.code .twoCells s' (.ok ()) ∧
    Machine.NeverPoursOntoItself { program := l'.code, state := .twoCells } := by
  have on : State.twoCells.tape.OnTape := by decide
  have ended : (Machine.run 40 { program := Program.plainMove, state := .twoCells }).map
      (fun r => Outcome.verdict r.2) = some (.ok ()) := by decide +kernel
  obtain ⟨⟨last, outcome⟩, run, judged⟩ := Option.map_eq_some_iff.mp ended
  have ends : Program.Ends _ .twoCells last.state _ := ⟨40, last, outcome, run, rfl, judged⟩
  obtain ⟨_, unfused⟩ := compile_move_plain
  obtain ⟨_, fused⟩ := compile_move_fused
  exact ⟨_, _, last.state, unfused, fused, on, ends,
    (plain_ends_iff_fused_ends rfl unfused fused on).mp ends⟩

/-- On a tape of one cell the optimized program ends and the unoptimized one
    does not. -/
theorem fused_ends_plain_does_not : ∃ l l', compile ⟨false, true⟩ "" [.move] = .ok l ∧
    compile ⟨true, true⟩ "" [.move] = .ok l' ∧
    (∃ s', Program.Ends l'.code .oneCell s' (.ok ())) ∧
    ∀ s' verdict, ¬ Program.Ends l.code .oneCell s' verdict := by
  obtain ⟨_, unfused⟩ := compile_move_plain
  obtain ⟨_, fused⟩ := compile_move_fused
  refine ⟨_, _, unfused, fused, ?_, ?_⟩
  · have ended : (Machine.run 40 { program := Program.fusedMove, state := .oneCell }).map
        (fun r => Outcome.verdict r.2) = some (.ok ()) := by decide +kernel
    obtain ⟨⟨last, outcome⟩, run, judged⟩ := Option.map_eq_some_iff.mp ended
    exact ⟨last.state, 40, last, outcome, run, rfl, judged⟩
  · intro s' verdict ends
    have on : State.oneCell.tape.OnTape := by decide
    obtain ⟨b, parsed, lowered⟩ := exists_block_of_compile unfused
    obtain ⟨b', parsed', lowered'⟩ := exists_block_of_compile fused
    obtain rfl : b = b' := by simpa [parsed] using parsed'
    have walked := Block.ends_of_plain rfl lowered on ends
    obtain ⟨_, never⟩ := (Block.ends_iff_never_pours lowered' on).mp walked
    -- After the first instruction the cell is one, and the move leads back to it.
    let m := follow Machine.step 1 { program := Program.fusedMove, state := .oneCell }
    have going : m.2 = none := by decide +kernel
    have pours : m.1.PoursOntoItself := by decide +kernel
    exact never 1 m.1 (Prod.ext rfl going) pours

end Compiling

end TapeLang
