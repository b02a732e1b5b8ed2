import TapeLang.Peephole.Optimize
import TapeLang.Proofs.Fusion
import TapeLang.Proofs.Matching

/-! # The optimizer on code

`Fuses` relates code to what any number of fusions anywhere in it make of it.
What every single fusion keeps and passes through instructions and loops is
kept by all of them. The optimizer only fuses: a window at the front of the rest
of a program is a window of the code which that rest spells.
-/

namespace TapeLang

/-- Code, and what fusions anywhere in it make of it. -/
inductive Fuses : Code → Code → Prop where
  | refl (c : Code) : Fuses c c
  | trans {a b c : Code} (first : Fuses a b) (second : Fuses b c) : Fuses a c
  | plain (i : Instruction) {c c' : Code} (later : Fuses c c') :
      Fuses (.plain i c) (.plain i c')
  | loop {b b' r r' : Code} (inside : Fuses b b') (later : Fuses r r') :
      Fuses (.loop b r) (.loop b' r')
  | fuse {c c' : Code} (fusion : Code.Fusion c c') : Fuses c c'

namespace Fuses

variable {c c' : Code}

theorem lift {R : Code → Code → Prop} (passes : Precongruence R)
    (fusion : ∀ {c c'}, Code.Fusion c c' → R c c') (h : Fuses c c') : R c c' := by
  induction h with
  | refl c => exact passes.refl c
  | trans _ _ ihFirst ihSecond => exact passes.trans ihFirst ihSecond
  | plain i _ ih => exact passes.plain i ih
  | loop _ _ ihInside ihLater => exact passes.loop ihInside ihLater
  | fuse h => exact fusion h

/-- Fused code does whatever the code does, with no more instructions. -/
theorem forth (h : Fuses c c') (f : Bool) : Refines True f c c' :=
  h.lift (Refines.precongruence True f) fun fusion => fusion.fused.forth f

/-- Read faithfully, fused code does nothing else. -/
theorem back (h : Fuses c c') : Refines False true c' c := by
  have passes := Refines.precongruence False true
  refine h.lift (R := fun a b => Refines False true b a) ?_ fun fusion => fusion.fused.back
  exact ⟨passes.refl, fun first second => passes.trans second first,
    fun i _ _ => passes.plain i, passes.loop⟩

/-- The second code is no longer, and its loops are short where those of the
    first are. -/
structure Shortens (c c' : Code) : Prop where
  length_le : c'.length ≤ c.length
  short : c.Short → c'.Short

theorem shortens_precongruence : Precongruence Shortens where
  refl c := ⟨Nat.le_refl _, id⟩
  trans first second :=
    ⟨Nat.le_trans second.length_le first.length_le, fun short => second.short (first.short short)⟩
  plain i _ _ later := ⟨Nat.succ_le_succ later.length_le, later.short⟩
  loop inside later := by
    refine ⟨?_, fun ⟨fits, body, rest⟩ => ⟨?_, inside.short body, later.short rest⟩⟩
    · have := inside.length_le
      have := later.length_le
      simp only [Code.length]
      omega
    · exact Nat.le_trans (Nat.succ_le_succ inside.length_le) fits

theorem shortens (h : Fuses c c') : Shortens c c' := by
  refine h.lift shortens_precongruence fun fusion => ?_
  cases fusion <;> exact ⟨by simp only [Code.length]; omega, by simp +contextual [Code.Short]⟩

end Fuses

/-! ## Windows of programs -/

/-- Instructions without jumps, then code. -/
def Code.line (is : List Instruction) (rest : Code) : Code :=
  is.foldr .plain rest

namespace Reads

variable {i o e : Instruction} {p q u : List Instruction} {c : Code} {outer : List Code}

theorem of_plain (isPlain : i.IsPlain) (reads : Reads (i :: p) c outer) :
    ∃ rest, c = .plain i rest ∧ Reads p rest outer := by
  cases reads with
  | plain _ later => exact ⟨_, rfl, later⟩
  | closing closes _ => exact absurd closes isPlain.2
  | opening opens _ => exact absurd opens isPlain.1

theorem of_close (closes : e.op = .jnz) (reads : Reads (e :: p) c outer) :
    ∃ rest outer', c = .done ∧ outer = rest :: outer' ∧ Reads p rest outer' := by
  cases reads with
  | plain isPlain _ => exact absurd closes isPlain.2
  | closing _ later => exact ⟨_, _, rfl, rfl, later⟩
  | opening opens _ => simp [closes] at opens

theorem of_open (opens : o.op = .jez) (reads : Reads (o :: p) c outer) :
    ∃ body rest, c = .loop body rest ∧ Reads p body (rest :: outer) := by
  cases reads with
  | plain isPlain _ => exact absurd opens isPlain.1
  | closing closes _ => simp [opens] at closes
  | opening _ later => exact ⟨_, _, rfl, later⟩

theorem of_line (is : List Instruction) (plain : ∀ i ∈ is, i.IsPlain)
    (reads : Reads (is ++ p) c outer) : ∃ rest, c = .line is rest ∧ Reads p rest outer := by
  induction is generalizing c with
  | nil => exact ⟨c, rfl, reads⟩
  | cons i is ih =>
      rw [List.forall_mem_cons] at plain
      obtain ⟨_, rfl, tail⟩ := of_plain plain.1 reads
      obtain ⟨rest, rfl, later⟩ := ih plain.2 tail
      exact ⟨rest, rfl, later⟩

/-- A loop without inner loops is read as such. -/
theorem of_loop (is : List Instruction) (opens : o.op = .jez) (plain : ∀ i ∈ is, i.IsPlain)
    (closes : e.op = .jnz) (reads : Reads (o :: (is ++ e :: p)) c outer) :
    ∃ rest, c = .loop (.line is .done) rest ∧ Reads p rest outer := by
  obtain ⟨body, rest, rfl, inside⟩ := of_open opens reads
  obtain ⟨_, rfl, tail⟩ := of_line is plain inside
  obtain ⟨_, _, rfl, same, later⟩ := of_close closes tail
  cases same
  exact ⟨rest, rfl, later⟩

/-- A window without jumps is fused where it is read. -/
theorem fuse_line (is : List Instruction) (plain : ∀ i ∈ is, i.IsPlain) (isPlain : i.IsPlain)
    (reads : Reads (is ++ p) c outer)
    (fusion : ∀ {rest}, Code.Fusion (.line is rest) (.plain i rest)) :
    ∃ c', Code.Fusion c c' ∧ Reads (i :: p) c' outer := by
  obtain ⟨rest, rfl, later⟩ := of_line is plain reads
  exact ⟨.plain i rest, fusion, later.plain isPlain⟩

/-- A window that is a loop is fused where it is read. -/
theorem fuse_loop (is : List Instruction) (opens : o.op = .jez) (plain : ∀ i ∈ is, i.IsPlain)
    (closes : e.op = .jnz) (isPlain : i.IsPlain) (reads : Reads (o :: (is ++ e :: p)) c outer)
    (fusion : ∀ {rest}, Code.Fusion (.loop (.line is .done) rest) (.plain i rest)) :
    ∃ c', Code.Fusion c c' ∧ Reads (i :: p) c' outer := by
  obtain ⟨rest, rfl, later⟩ := of_loop is opens plain closes reads
  exact ⟨.plain i rest, fusion, later.plain isPlain⟩

/-- What is fused in the rest of a program is fused in the program. -/
theorem replace
    (step : ∀ c outer, Reads p c outer → ∃ c', Fuses c c' ∧ Reads q c' outer)
    (reads : Reads (u ++ p) c outer) :
    ∃ c' outer', Fuses c c' ∧ List.Forall₂ Fuses outer outer' ∧ Reads (u ++ q) c' outer' := by
  induction u generalizing c outer with
  | nil =>
      obtain ⟨c', fuses, reads'⟩ := step c outer reads
      exact ⟨c', outer, fuses, List.forall₂_same.mpr fun c _ => .refl c, reads'⟩
  | cons i u ih =>
      cases reads with
      | plain isPlain later =>
          obtain ⟨c', outer', fuses, behind, reads'⟩ := ih later
          exact ⟨_, outer', fuses.plain i, behind, reads'.plain isPlain⟩
      | closing closes later =>
          -- What follows the end of a loop is no longer its body but the first outer code.
          obtain ⟨c', outer', fuses, behind, reads'⟩ := ih later
          exact ⟨_, _, .refl .done, .cons fuses behind, reads'.closing closes⟩
      | opening opens later =>
          obtain ⟨c', outer', fuses, behind, reads'⟩ := ih later
          cases behind with
          | cons rest behind => exact ⟨_, _, .loop fuses rest, behind, reads'.opening opens⟩

end Reads

namespace Peephole

variable {c : Code}

/-- A rule fuses a window of the code that a program spells. -/
def Rule.Sound (rule : Rule) : Prop :=
  ∀ {p rest i c outer}, rule.fuse? p = some (i, rest) → Reads p c outer →
    ∃ c', Code.Fusion c c' ∧ Reads (i :: rest) c' outer

section Rules

variable {rule : Rule} {windows : Windows}

theorem Rule.Fuses.sound_of_loops (fuses : rule.Fuses (Looped windows)) (plain : Plain windows)
    (fusion : ∀ {is i rest}, windows is i → Code.Fusion (.loop (.line is .done) rest) (.plain i rest)) :
    rule.Sound := by
  intro p rest i c outer fused reads
  obtain ⟨_, ⟨opens, inside, closes⟩, rfl⟩ := (fuses p i rest).mp fused
  have plain := List.forall_mem_cons.mp (plain _ i inside)
  rw [List.cons_append, List.append_assoc] at reads
  exact reads.fuse_loop _ opens plain.2 closes plain.1 (fusion inside)

theorem Rule.Fuses.sound_of_lines (fuses : rule.Fuses windows) (plain : Plain windows)
    (fusion : ∀ {is i rest}, windows is i → Code.Fusion (.line is rest) (.plain i rest)) :
    rule.Sound := by
  intro p rest i c outer fused reads
  obtain ⟨window, inside, rfl⟩ := (fuses p i rest).mp fused
  have plain := List.forall_mem_cons.mp (plain window i inside)
  exact reads.fuse_line window plain.2 plain.1 (fusion inside)

theorem clearLoop_sound : clearLoop.Sound := by
  refine clearLoop_fuses.sound_of_loops clearBody_plain fun inside => ?_
  cases inside <;> exact .clear (by simp)

theorem zeroZero_sound : zeroZero.Sound := by
  refine zeroZero_fuses.sound_of_lines zeroTwice_plain fun inside => ?_
  cases inside
  exact .zeroZero

theorem searchLoop_sound : searchLoop.Sound := by
  refine searchLoop_fuses.sound_of_loops searchBody_plain fun inside => ?_
  cases inside with
  | right => exact .searchRight
  | left => exact .searchLeft

theorem moveLoop_sound : moveLoop.Sound := by
  refine moveLoop_fuses.sound_of_loops takeGive_plain fun ⟨trip⟩ => ?_
  exact .takeGive (fuseMove_eq_some_iff.mpr trip)

theorem moveLoopSwapped_sound : moveLoopSwapped.Sound := by
  refine moveLoopSwapped_fuses.sound_of_loops giveTake_plain fun ⟨trip⟩ => ?_
  exact .giveTake (fuseMove_eq_some_iff.mpr trip)

theorem zeroStep_sound : zeroStep.Sound := by
  refine zeroStep_fuses.sound_of_lines zeroAndStep_plain fun inside => ?_
  cases inside with
  | right => exact .zeroRight
  | left => exact .zeroLeft

theorem zeroMerge_sound : zeroMerge.Sound := by
  refine zeroMerge_fuses.sound_of_lines twoAreas_plain fun inside => ?_
  cases inside with
  | right fits => exact .mergeRight fits
  | left fits => exact .mergeLeft fits

theorem mandelLoop_sound : mandelLoop.Sound :=
  mandelLoop_fuses.sound_of_loops diffuseBody_plain fun ⟨sum⟩ => .mandel sum

theorem passes_sound : ∀ pass ∈ passes, ∀ rule ∈ pass.rules, rule.Sound :=
  forall_rules clearLoop_sound zeroZero_sound searchLoop_sound moveLoop_sound moveLoopSwapped_sound
    zeroStep_sound zeroMerge_sound mandelLoop_sound

end Rules

/-! ## Passes, rounds and the optimizer -/

section Keeping

variable {I : List Instruction → Prop}

/-- A fusion by this rule, anywhere in a program, keeps what is said of it. -/
def Rule.Keeps (I : List Instruction → Prop) (rule : Rule) : Prop :=
  ∀ u p rest i, rule.fuse? p = some (i, rest) → I (u ++ p) → I (u ++ i :: rest)

theorem Pass.scan_keeps {pass : Pass} (keeps : ∀ rule ∈ pass.rules, rule.Keeps I)
    (before : List Instruction) (fusions : Nat) (p : List Instruction)
    (holds : I (before.reverse ++ p)) : I (pass.scan before fusions p).1 := by
  fun_induction Pass.scan pass before fusions p with
  | case1 before fusions => simpa using holds
  | case2 before fusions i rest j after fused ih =>
      obtain ⟨rule, member, fused⟩ := List.exists_of_findSome?_eq_some fused
      exact ih (keeps rule member _ _ _ _ fused holds)
  | case3 before fusions i rest _ ih =>
      apply ih
      simpa using holds

theorem foldl_advance_keeps (round : Nat) {ps : List Pass}
    (keeps : ∀ pass ∈ ps, ∀ rule ∈ pass.rules, rule.Keeps I) (g : Progress) (holds : I g.code) :
    I (ps.foldl (Progress.advance round) g).code := by
  induction ps generalizing g with
  | nil => exact holds
  | cons pass ps ih =>
      rw [List.forall_mem_cons] at keeps
      exact ih keeps.2 (g.advance round pass) (Pass.scan_keeps keeps.1 [] 0 g.code holds)

/-- What every rule keeps, all rounds keep. -/
theorem rounds_keeps (keeps : ∀ pass ∈ passes, ∀ rule ∈ pass.rules, rule.Keeps I)
    (fixpoint : Bool) (round : Nat) (before : List Tally) (p : List Instruction) (holds : I p) :
    I (rounds fixpoint round before p).1 := by
  fun_induction rounds fixpoint round before p with
  | case1 round before p => exact foldl_advance_keeps round keeps { code := p } holds
  | case2 round before p =>
      rename_i ih
      exact ih (foldl_advance_keeps round keeps { code := p } holds)

end Keeping

theorem keeps_of_sound {rule : Rule} (sound : rule.Sound) :
    rule.Keeps fun q => ∃ c', Fuses c c' ∧ Reads q c' [] := by
  rintro u p rest i fused ⟨c', fuses, reads⟩
  obtain ⟨c₁, _, more, behind, reads₁⟩ := reads.replace (q := i :: rest) fun c outer reads => by
    obtain ⟨c', fusion, reads'⟩ := sound fused reads
    exact ⟨c', .fuse fusion, reads'⟩
  cases behind
  exact ⟨c₁, fuses.trans more, reads₁⟩

theorem rounds_fuses (fixpoint : Bool) (round : Nat) (before : List Tally) (p : List Instruction)
    (reads : Reads p c []) :
    ∃ c', Fuses c c' ∧ Reads (rounds fixpoint round before p).1 c' [] :=
  rounds_keeps (I := fun q => ∃ c', Fuses c c' ∧ Reads q c' [])
    (fun pass inPasses rule inRules => keeps_of_sound (passes_sound pass inPasses rule inRules))
    fixpoint round before p ⟨c, .refl c, reads⟩

/-- The optimizer fuses the code of a linked program, and links the result. -/
theorem optimize_fuses (fixpoint : Bool) {program : Program} (linked : Linked c program.toList) :
    ∃ c', Fuses c c' ∧ Linked c' (optimize fixpoint program).1.toList := by
  obtain ⟨c', fuses, reads⟩ := rounds_fuses fixpoint 1 [] program.toList linked.reads
  exact ⟨c', fuses, Spelled.linked (by simpa using reads.spelled) (fuses.shortens.short linked.short)⟩

end Peephole

end TapeLang
