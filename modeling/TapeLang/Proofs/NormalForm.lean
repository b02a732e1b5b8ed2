import TapeLang.Block.Lower
import TapeLang.Proofs.Linking
import TapeLang.Proofs.Matching

/-! # Optimized programs are in normal form

A scan that fuses nothing has looked at every position, so the last round of the
optimizer leaves a program in which no rule matches. Linking comes after that
round, but rules are blind to the distances of jumps, and linking twice is linking
once. So optimizing a second time does nothing. Jumps need not match for this.
-/

namespace TapeLang.Peephole

/-- No rule of the pass matches anywhere. -/
def Pass.Idle (pass : Pass) (p : List Instruction) : Prop :=
  ∀ k, pass.fuse? (p.drop k) = none

/-- No rule of any pass matches anywhere. -/
def Normal (p : List Instruction) : Prop :=
  ∀ pass ∈ passes, ∀ rule ∈ pass.rules, ∀ k, rule.fuse? (p.drop k) = none

theorem Pass.idle_iff {pass : Pass} {p : List Instruction} :
    pass.Idle p ↔ ∀ rule ∈ pass.rules, ∀ k, rule.fuse? (p.drop k) = none := by
  simp only [Pass.Idle, Pass.fuse?, List.findSome?_eq_none_iff]
  exact ⟨fun idle rule member k => idle k rule member, fun idle k rule member => idle rule member k⟩

theorem normal_iff {p : List Instruction} : Normal p ↔ ∀ pass ∈ passes, pass.Idle p := by
  simp only [Normal, Pass.idle_iff]

section Scanning

variable {pass : Pass} {p : List Instruction} {i : Instruction}

theorem Pass.idle_nil (pass : Pass) : pass.Idle [] := by
  intro k
  rw [List.drop_nil]
  cases fused : pass.fuse? [] with
  | none => rfl
  | some fusion =>
      have := length_of_fuse? fused
      simp at this

theorem Pass.idle_cons : pass.Idle (i :: p) ↔ pass.fuse? (i :: p) = none ∧ pass.Idle p := by
  constructor
  · intro idle
    exact ⟨idle 0, fun k => idle (k + 1)⟩
  · rintro ⟨front, idle⟩ k
    cases k with
    | zero => exact front
    | succ k => exact idle k

theorem Pass.fusions_le_scan (pass : Pass) (before : List Instruction) (fusions : Nat)
    (p : List Instruction) : fusions ≤ (pass.scan before fusions p).2 := by
  fun_induction Pass.scan pass before fusions p with
  | case1 => exact Nat.le_refl _
  | case2 before fusions i rest j after _ ih => omega
  | case3 before fusions i rest _ ih => exact ih

/-- A scan that counts no fusion has found the pass idle, and changed nothing. -/
theorem Pass.idle_of_scan (before : List Instruction) (fusions : Nat) (p : List Instruction)
    (unfused : (pass.scan before fusions p).2 = fusions) :
    pass.Idle p ∧ (pass.scan before fusions p).1 = before.reverse ++ p := by
  fun_induction Pass.scan pass before fusions p with
  | case1 before fusions => exact ⟨pass.idle_nil, by simp⟩
  | case2 before fusions i rest j after fused ih =>
      have := pass.fusions_le_scan before (fusions + 1) (j :: after)
      omega
  | case3 before fusions i rest front ih =>
      obtain ⟨idle, same⟩ := ih unfused
      exact ⟨idle_cons.mpr ⟨front, idle⟩, by simp [same]⟩

theorem Pass.scan_of_idle (before : List Instruction) (fusions : Nat) (idle : pass.Idle p) :
    pass.scan before fusions p = (before.reverse ++ p, fusions) := by
  induction p generalizing before with
  | nil => simp [Pass.scan]
  | cons i rest ih =>
      obtain ⟨front, idle⟩ := idle_cons.mp idle
      rw [Pass.scan]
      split
      · next fused =>
          rw [front] at fused
          cases fused
      · simp [ih (i :: before) idle]

end Scanning

section Rounds

variable {ps : List Pass} {g : Progress} {p : List Instruction} {round : Nat}

theorem Progress.total_le_advance (round : Nat) (g : Progress) (pass : Pass) :
    g.total ≤ (g.advance round pass).total :=
  Nat.le_add_right ..

theorem total_le_foldl_advance (round : Nat) (ps : List Pass) (g : Progress) :
    g.total ≤ (ps.foldl (Progress.advance round) g).total := by
  induction ps generalizing g with
  | nil => exact Nat.le_refl _
  | cons pass ps ih => exact Nat.le_trans (g.total_le_advance round pass) (ih _)

theorem Progress.advance_of_idle {pass : Pass} (idle : pass.Idle g.code) :
    g.advance round pass = g := by
  simp [Progress.advance, Pass.run, Pass.scan_of_idle [] 0 idle]

theorem Progress.idle_of_advance {pass : Pass} (unfused : (g.advance round pass).total = g.total) :
    pass.Idle g.code := by
  have fusions : (pass.run g.code).2 = 0 := by
    simp only [Progress.advance] at unfused
    omega
  exact (Pass.idle_of_scan [] 0 g.code fusions).1

theorem foldl_advance_of_idle (idle : ∀ pass ∈ ps, pass.Idle g.code) :
    ps.foldl (Progress.advance round) g = g := by
  induction ps with
  | nil => rfl
  | cons pass ps ih =>
      rw [List.forall_mem_cons] at idle
      rw [List.foldl_cons, Progress.advance_of_idle idle.1, ih idle.2]

theorem idle_of_foldl_advance (unfused : (ps.foldl (Progress.advance round) g).total = g.total) :
    ∀ pass ∈ ps, pass.Idle g.code := by
  induction ps with
  | nil => simp
  | cons pass ps ih =>
      rw [List.foldl_cons] at unfused
      have first : (g.advance round pass).total = g.total := by
        have := g.total_le_advance round pass
        have := total_le_foldl_advance round ps (g.advance round pass)
        omega
      have idle := Progress.idle_of_advance first
      -- The first pass left everything as it was, so the others saw the same code.
      rw [Progress.advance_of_idle idle] at unfused
      exact List.forall_mem_cons.mpr ⟨idle, ih unfused⟩

theorem sweep_of_normal (normal : Normal p) : sweep round p = { code := p } :=
  foldl_advance_of_idle (normal_iff.mp normal)

theorem normal_of_sweep (unfused : (sweep round p).total = 0) : Normal p :=
  normal_iff.mpr (idle_of_foldl_advance unfused)

theorem normal_rounds (round : Nat) (before : List Tally) (p : List Instruction) :
    Normal (rounds true round before p).1 := by
  fun_induction rounds true round before p with
  | case1 round before p g last =>
      have normal : Normal p := normal_of_sweep (by simpa using last)
      simpa only [g, sweep_of_normal normal] using normal
  | case2 round before p g more =>
      rename_i ih
      exact ih

theorem rounds_of_normal (before : List Tally) (normal : Normal p) :
    rounds true round before p = (p, before) := by
  rw [rounds, sweep_of_normal normal]
  simp

end Rounds

/-! ## Rules are blind to distances -/

section Blind

variable {rule : Rule} {windows : Windows} {p q : List Instruction}

/-- Whether something is such a window has nothing to do with the distances of
    jumps. -/
def IgnoresDistances (windows : Windows) : Prop :=
  ∀ window window' i, Alike window window' → windows window i → windows window' i

theorem Plain.ignoresDistances (plain : Plain windows) : IgnoresDistances windows := by
  intro window window' i alike inside
  have plain := (List.forall_mem_cons.mp (plain window i inside)).2
  rwa [alike.eq_of_isPlain plain]

theorem Plain.ignoresDistances_looped (plain : Plain windows) :
    IgnoresDistances (Looped windows) := by
  rintro _ window' i alike ⟨opens, inside, closes⟩
  have plain := (List.forall_mem_cons.mp (plain _ i inside)).2
  obtain ⟨o', behind, first, rest, rfl⟩ := List.forall₂_cons_left_iff.mp alike
  have body := List.forall₂_take_append _ _ _ rest.flip
  have last := List.forall₂_drop_append _ _ _ rest.flip
  obtain ⟨e', _, final, nothing, tail⟩ := List.forall₂_cons_right_iff.mp last
  cases nothing
  have same := Alike.eq_of_isPlain (body.flip) plain
  rw [← List.take_append_drop _ behind, same, tail]
  exact .intro (first.op_eq.trans opens) inside (final.op_eq.trans closes)

/-- Whether the rule matches has nothing to do with the distances of jumps. -/
def Rule.Blind (rule : Rule) : Prop :=
  ∀ p q, Alike p q → rule.fuse? p = none → rule.fuse? q = none

theorem Rule.Fuses.blind (fuses : rule.Fuses windows) (ignores : IgnoresDistances windows) :
    rule.Blind := by
  intro p q alike idle
  cases fused : rule.fuse? q with
  | none => rfl
  | some fusion =>
      obtain ⟨window, inside, rfl⟩ := (fuses q fusion.1 fusion.2).mp fused
      have front := List.forall₂_take_append _ _ _ alike
      have fused' := (fuses p fusion.1 _).mpr
        ⟨_, ignores _ _ _ (Alike.symm front) inside, (List.take_append_drop window.length p).symm⟩
      rw [idle] at fused'
      cases fused'

theorem passes_blind : ∀ pass ∈ passes, ∀ rule ∈ pass.rules, rule.Blind :=
  forall_rules (clearLoop_fuses.blind clearBody_plain.ignoresDistances_looped)
    (zeroZero_fuses.blind zeroTwice_plain.ignoresDistances)
    (searchLoop_fuses.blind searchBody_plain.ignoresDistances_looped)
    (moveLoop_fuses.blind takeGive_plain.ignoresDistances_looped)
    (moveLoopSwapped_fuses.blind giveTake_plain.ignoresDistances_looped)
    (zeroStep_fuses.blind zeroAndStep_plain.ignoresDistances)
    (zeroMerge_fuses.blind twoAreas_plain.ignoresDistances)
    (mandelLoop_fuses.blind diffuseBody_plain.ignoresDistances_looped)

theorem Normal.of_alike (alike : Alike p q) (normal : Normal p) : Normal q := by
  intro pass inPasses rule inRules k
  exact passes_blind pass inPasses rule inRules _ _ (List.forall₂_drop k alike)
    (normal pass inPasses rule inRules k)

end Blind

/-! ## Optimizing twice -/

theorem normal_optimize (p : Program) : Normal (optimize true p).1.toList :=
  (normal_rounds 1 [] p.toList).of_alike (Program.alike_link (rounds true 1 [] p.toList).1.toArray)

theorem optimize_of_normal {p : Program} (normal : Normal p.toList) : optimize true p = (p.link, []) := by
  rw [optimize, rounds_of_normal [] normal]

theorem optimize_optimize (p : Program) :
    optimize true (optimize true p).1 = ((optimize true p).1, []) := by
  rw [optimize_of_normal (normal_optimize p)]
  exact congrArg (·, []) (Program.link_link _)

theorem code_of_lower {how : Lowering} {b : Block} {l : Lowered} (on : how.peephole = true)
    (ok : b.lower how = .ok l) : ∃ p, l.code = (optimize how.fixpoint p).1 := by
  unfold Block.lower at ok
  split at ok
  · cases ok
  · next lowered _ =>
      cases ok
      exact ⟨lowered.code, by simp [Lowered.polish, on]⟩

/-- The optimizer reaches a normal form, of any program whatever: no rule matches
    anywhere, and optimizing again changes nothing and fuses nothing. So programs
    lowered with the default options are optimized already. -/
theorem optimize_reaches_normal_form :
    (∀ p : Program, Normal (optimize true p).1.toList ∧
      optimize true (optimize true p).1 = ((optimize true p).1, [])) ∧
    ∀ (b : Block) (l : Lowered), b.lower {} = .ok l → (optimize true l.code).1 = l.code := by
  refine ⟨fun p => ⟨normal_optimize p, optimize_optimize p⟩, fun b l ok => ?_⟩
  obtain ⟨p, same⟩ := code_of_lower rfl ok
  rw [same, optimize_optimize]

/-- A loop in a loop that clears a cell, and another one a step further right. -/
def wipe : Block :=
  .loop (.loop (.command .dec .empty) .empty) (.command .right
    (.loop (.command .dec .empty) (.command .right (.command .halt .empty))))

/-- Jumps without partner around a loop that clears a cell. -/
def ragged : Program :=
  #[.jnz 7, .jez 9, .jez 3, .add 1, .jnz 5, .jez 0, .halt, .jnz 9]

theorem optimize_reaches_normal_form_ragged :
    (∃ l, wipe.lower {} = .ok l ∧ l.code = #[.zeror 2, .halt] ∧ (optimize true l.code).1 = l.code) ∧
    ∃ q : Program, (optimize true ragged).1 = q ∧ q = #[.jnz 7, .jez 9, .zero, .jez 2, .halt, .jnz 2] ∧
      Normal q.toList ∧ optimize true q = (q, []) := by
  have lowered : wipe.lower {} = .ok ⟨#[.zeror 2, .halt], [⟨1, "clear", 1⟩, ⟨1, "clear", 2⟩,
      ⟨1, "zero-area", 2⟩, ⟨1, "zero-area", 1⟩]⟩ := by decide +kernel
  have optimized : (optimize true ragged).1 = #[.jnz 7, .jez 9, .zero, .jez 2, .halt, .jnz 2] := by
    decide +kernel
  obtain ⟨every, fixed⟩ := optimize_reaches_normal_form
  exact ⟨⟨_, lowered, rfl, fixed wipe _ lowered⟩, ⟨_, rfl, optimized, every ragged⟩⟩

end TapeLang.Peephole
