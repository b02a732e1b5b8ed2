import TapeLang.Peephole.Pass
import TapeLang.Proofs.Layout

/-! # What the fusion rules match

A rule fuses windows of one kind and nothing else. `Rule.Fuses` says so of a rule
and its windows; whoever reasons about a rule looks at the windows and not into
the rule. Windows with jumps are loops around a body without jumps.
-/

namespace TapeLang.Peephole

/-- Windows of some kind, each with the instruction that replaces it. -/
abbrev Windows := List Instruction → Instruction → Prop

/-- The rule fuses these windows and no others. -/
def Rule.Fuses (rule : Rule) (windows : Windows) : Prop :=
  ∀ p i rest, rule.fuse? p = some (i, rest) ↔ ∃ window, windows window i ∧ p = window ++ rest

/-- Loops around a body. -/
inductive Looped (body : Windows) : Windows where
  | intro {o e i : Instruction} {is : List Instruction} (opens : o.op = .jez) (inside : body is i)
      (closes : e.op = .jnz) : Looped body (o :: (is ++ [e])) i

/-- Neither these windows nor the instructions that replace them have jumps. -/
def Plain (windows : Windows) : Prop :=
  ∀ is i, windows is i → ∀ j ∈ i :: is, j.IsPlain

/-- Bodies that count the current cell to zero, or clear it. -/
inductive ClearBody : Windows where
  | up : ClearBody [.add 1] .zero
  | down : ClearBody [.add 255] .zero
  | clear : ClearBody [.zero] .zero

/-- Bodies that only move. -/
inductive SearchBody : Windows where
  | right {n a : UInt16} (moves : n ≠ 0) : SearchBody [⟨.right, n, a⟩] (.searchr n)
  | left {n a : UInt16} (moves : n ≠ 0) : SearchBody [⟨.left, n, a⟩] (.searchl n)

/-- There and back by the same distance. -/
inductive Trip : (there back fused : Instruction) → Prop where
  | right {n a b : UInt16} (moves : n ≠ 0) : Trip ⟨.right, n, a⟩ ⟨.left, n, b⟩ (.amover n)
  | left {n a b : UInt16} (moves : n ≠ 0) : Trip ⟨.left, n, a⟩ ⟨.right, n, b⟩ (.amovel n)

/-- Bodies that take from the current cell and give to another. -/
inductive TakeGive : Windows where
  | intro {there back i : Instruction} (trip : Trip there back i) :
      TakeGive [.add 255, there, .add 1, back] i

/-- Bodies that give to another cell and take from the current one. -/
inductive GiveTake : Windows where
  | intro {there back i : Instruction} (trip : Trip there back i) :
      GiveTake [there, .add 1, back, .add 255] i

/-- Bodies that pour a cell on the right further right and step left. -/
inductive DiffuseBody : Windows where
  | intro {x n q a b c : UInt16} (sum : x.toNat + n.toNat = q.toNat) :
      DiffuseBody [⟨.right, x, a⟩, ⟨.amover, n, b⟩, ⟨.left, q, c⟩] (.mandel x n)

/-- A cell cleared twice. -/
inductive ZeroTwice : Windows where
  | intro : ZeroTwice [.zero, .zero] .zero

/-- A cell cleared and left by one step. -/
inductive ZeroAndStep : Windows where
  | right : ZeroAndStep [.zero, .right 1] (.zeror 1)
  | left : ZeroAndStep [.zero, .left 1] (.zerol 1)

/-- Areas next to each other whose sizes add up to an operand. -/
inductive TwoAreas : Windows where
  | right {n m a b : UInt16} (fits : n.toNat + m.toNat ≤ Instruction.maxOperand) :
      TwoAreas [⟨.zeror, n, a⟩, ⟨.zeror, m, b⟩] (.zeror (n + m))
  | left {n m a b : UInt16} (fits : n.toNat + m.toNat ≤ Instruction.maxOperand) :
      TwoAreas [⟨.zerol, n, a⟩, ⟨.zerol, m, b⟩] (.zerol (n + m))

theorem clearBody_plain : Plain ClearBody := by
  rintro _ _ (_ | _ | _) <;> decide

theorem searchBody_plain : Plain SearchBody := by
  rintro _ _ (_ | _) <;>
    simp [Instruction.IsPlain, Instruction.searchr, Instruction.searchl]

theorem Trip.plain {there back i : Instruction} (trip : Trip there back i) :
    there.IsPlain ∧ back.IsPlain ∧ i.IsPlain := by
  cases trip <;> simp [Instruction.IsPlain, Instruction.amover, Instruction.amovel]

theorem takeGive_plain : Plain TakeGive := by
  rintro _ _ ⟨trip⟩
  obtain ⟨out, home, plain⟩ := trip.plain
  simp only [List.forall_mem_cons]
  exact ⟨plain, by decide, out, by decide, home, by simp⟩

theorem giveTake_plain : Plain GiveTake := by
  rintro _ _ ⟨trip⟩
  obtain ⟨out, home, plain⟩ := trip.plain
  simp only [List.forall_mem_cons]
  exact ⟨plain, out, by decide, home, by decide, by simp⟩

theorem diffuseBody_plain : Plain DiffuseBody := by
  rintro _ _ ⟨_⟩
  simp [Instruction.IsPlain, Instruction.mandel]

theorem zeroTwice_plain : Plain ZeroTwice := by
  rintro _ _ ⟨⟩
  decide

theorem zeroAndStep_plain : Plain ZeroAndStep := by
  rintro _ _ (_ | _) <;> decide

theorem twoAreas_plain : Plain TwoAreas := by
  rintro _ _ (_ | _) <;> simp [Instruction.IsPlain, Instruction.zeror, Instruction.zerol]

theorem fuseMove_eq_some_iff {there back i : Instruction} : fuseMove there back = some i ↔ Trip there back i := by
  constructor
  · intro fused
    unfold fuseMove at fused
    split at fused
    · split at fused
      · next same =>
          simp only [Bool.and_eq_true, decide_eq_true_eq, bne_iff_ne] at same
          obtain ⟨rfl, moves⟩ := same
          cases fused
          exact .right moves
      · cases fused
    · split at fused
      · next same =>
          simp only [Bool.and_eq_true, decide_eq_true_eq, bne_iff_ne] at same
          obtain ⟨rfl, moves⟩ := same
          cases fused
          exact .left moves
      · cases fused
    · cases fused
  · intro trip
    cases trip with
    | right moves => simp [fuseMove, moves]
    | left moves => simp [fuseMove, moves]

/-- A rule that looks for a loop around a body is about what stands behind the
    first jump. -/
theorem Rule.fuses_looped {rule : Rule} {body : Windows}
    (forth : ∀ {p i rest}, rule.fuse? p = some (i, rest) →
      ∃ a b is c d, body is i ∧ p = ⟨.jez, a, b⟩ :: (is ++ ⟨.jnz, c, d⟩ :: rest))
    (back : ∀ {a b is c d i rest}, body is i →
      rule.fuse? (⟨.jez, a, b⟩ :: (is ++ ⟨.jnz, c, d⟩ :: rest)) = some (i, rest)) :
    rule.Fuses (Looped body) := by
  intro p i rest
  constructor
  · intro fused
    obtain ⟨a, b, is, c, d, inside, rfl⟩ := forth fused
    exact ⟨_, .intro (o := ⟨.jez, a, b⟩) (e := ⟨.jnz, c, d⟩) rfl inside rfl, by simp⟩
  · rintro ⟨_, ⟨opens, inside, closes⟩, rfl⟩
    rename_i o e is
    obtain ⟨_, a, b⟩ := o
    obtain ⟨_, c, d⟩ := e
    cases opens
    cases closes
    simpa using back inside

theorem clearLoop_fuses : clearLoop.Fuses (Looped ClearBody) := by
  apply Rule.fuses_looped
  · intro p i rest fused
    simp only [clearLoop, fuseClearLoop] at fused
    split at fused
    · next body _ _ _ =>
        split at fused
        · next known =>
            cases fused
            have known : body = .add 1 ∨ body = .add 255 ∨ body = .zero := by
              simpa [or_assoc] using known
            have inside : ClearBody [body] .zero := by
              rcases known with rfl | rfl | rfl
              · exact .up
              · exact .down
              · exact .clear
            exact ⟨_, _, [body], _, _, inside, rfl⟩
        · cases fused
    · cases fused
  · intro a b is c d i rest inside
    cases inside <;> rfl

theorem searchLoop_fuses : searchLoop.Fuses (Looped SearchBody) := by
  apply Rule.fuses_looped
  · intro p i rest fused
    simp only [searchLoop, fuseSearchLoop] at fused
    split at fused
    · split at fused
      · next moves =>
          cases fused
          exact ⟨_, _, _, _, _, .right (bne_iff_ne.mp moves), rfl⟩
      · cases fused
    · split at fused
      · next moves =>
          cases fused
          exact ⟨_, _, _, _, _, .left (bne_iff_ne.mp moves), rfl⟩
      · cases fused
    · cases fused
  · intro a b is c d i rest inside
    cases inside with
    | right moves => simp [searchLoop, fuseSearchLoop, moves]
    | left moves => simp [searchLoop, fuseSearchLoop, moves]

theorem moveLoop_fuses : moveLoop.Fuses (Looped TakeGive) := by
  apply Rule.fuses_looped
  · intro p i rest fused
    simp only [moveLoop, fuseMoveLoop] at fused
    split at fused
    · split at fused
      · next known =>
          simp only [Bool.and_eq_true, decide_eq_true_eq] at known
          obtain ⟨rfl, rfl⟩ := known
          split at fused
          · next move =>
              cases fused
              exact ⟨_, _, _, _, _, .intro (fuseMove_eq_some_iff.mp move), rfl⟩
          · cases fused
      · cases fused
    · cases fused
  · rintro a b is c d i rest ⟨trip⟩
    simp [moveLoop, fuseMoveLoop, fuseMove_eq_some_iff.mpr trip]

theorem moveLoopSwapped_fuses : moveLoopSwapped.Fuses (Looped GiveTake) := by
  apply Rule.fuses_looped
  · intro p i rest fused
    simp only [moveLoopSwapped, fuseMoveLoopSwapped] at fused
    split at fused
    · split at fused
      · next known =>
          simp only [Bool.and_eq_true, decide_eq_true_eq] at known
          obtain ⟨rfl, rfl⟩ := known
          split at fused
          · next move =>
              cases fused
              exact ⟨_, _, _, _, _, .intro (fuseMove_eq_some_iff.mp move), rfl⟩
          · cases fused
      · cases fused
    · cases fused
  · rintro a b is c d i rest ⟨trip⟩
    simp [moveLoopSwapped, fuseMoveLoopSwapped, fuseMove_eq_some_iff.mpr trip]

theorem mandelLoop_fuses : mandelLoop.Fuses (Looped DiffuseBody) := by
  apply Rule.fuses_looped
  · intro p i rest fused
    simp only [mandelLoop, fuseMandelLoop] at fused
    split at fused
    · split at fused
      · next sum =>
          cases fused
          exact ⟨_, _, _, _, _, .intro sum, rfl⟩
      · cases fused
    · cases fused
  · rintro a b is c d i rest ⟨sum⟩
    simp [mandelLoop, fuseMandelLoop, sum]

theorem zeroZero_fuses : zeroZero.Fuses ZeroTwice := by
  intro p i rest
  constructor
  · intro fused
    simp only [zeroZero, fuseZeroZero] at fused
    split at fused
    · split at fused
      · next known =>
          simp only [Bool.and_eq_true, decide_eq_true_eq] at known
          obtain ⟨rfl, rfl⟩ := known
          cases fused
          exact ⟨_, .intro, rfl⟩
      · cases fused
    · cases fused
  · rintro ⟨_, ⟨⟩, rfl⟩
    rfl

theorem zeroStep_fuses : zeroStep.Fuses ZeroAndStep := by
  intro p i rest
  constructor
  · intro fused
    simp only [zeroStep, fuseZeroStep] at fused
    split at fused
    · split at fused
      · next first =>
          subst first
          split at fused
          · next second =>
              subst second
              cases fused
              exact ⟨_, .right, rfl⟩
          · split at fused
            · next second =>
                subst second
                cases fused
                exact ⟨_, .left, rfl⟩
            · cases fused
      · cases fused
    · cases fused
  · rintro ⟨_, _ | _, rfl⟩ <;> rfl

theorem zeroMerge_fuses : zeroMerge.Fuses TwoAreas := by
  intro p i rest
  constructor
  · intro fused
    simp only [zeroMerge, fuseZeroMerge] at fused
    split at fused
    · split at fused
      · next fits =>
          cases fused
          exact ⟨_, .right fits, rfl⟩
      · cases fused
    · split at fused
      · next fits =>
          cases fused
          exact ⟨_, .left fits, rfl⟩
      · cases fused
    · cases fused
  · rintro ⟨_, fits | fits, rfl⟩ <;> simp [zeroMerge, fuseZeroMerge, fits]

/-- What holds of each rule holds of all rules of all passes. -/
theorem forall_rules {P : Rule → Prop} (clear : P clearLoop) (dedup : P zeroZero)
    (search : P searchLoop) (move : P moveLoop) (swapped : P moveLoopSwapped) (step : P zeroStep)
    (merge : P zeroMerge) (mandel : P mandelLoop) : ∀ pass ∈ passes, ∀ rule ∈ pass.rules, P rule := by
  simp only [passes, clearPass, dedupPass, searchPass, movePass, areaPass, mandelPass,
    List.forall_mem_cons, List.not_mem_nil, false_implies, implies_true, and_true]
  exact ⟨clear, dedup, search, ⟨move, swapped⟩, ⟨step, merge⟩, ⟨step, merge⟩, mandel⟩

end TapeLang.Peephole
