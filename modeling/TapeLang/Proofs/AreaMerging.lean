import Mathlib.Data.List.Chain
import TapeLang.Proofs.Fusion
import TapeLang.Proofs.NormalForm

/-! # Two scans merge all areas

The pass for areas of cleared cells looks at two neighbours at a time and never
back, so one scan can leave areas that it made side by side. It leaves no cell
that is cleared and left by one step, though, and from then on areas are all that
is fused. Areas only grow: neighbours too large for one operand stay so. Hence a
second scan leaves nothing to fuse.
-/

namespace TapeLang.Peephole

/-- What the pass for areas fuses. -/
def AreaWindow : Windows :=
  fun window i => ZeroAndStep window i ∨ TwoAreas window i

/-- No cell is cleared by the first instruction and left by the second. -/
def Unstepped (a b : Instruction) : Prop :=
  ∀ i, ¬ ZeroAndStep [a, b] i

/-- The pass for areas does not fuse the two. -/
def Apart (a b : Instruction) : Prop :=
  ∀ i, ¬ AreaWindow [a, b] i

/-- Apply a pass, and apply it again to the result. -/
def Pass.twice (pass : Pass) (p : List Instruction) : List Instruction :=
  (pass.run (pass.run p).1).1

/-! ## Windows of two -/

section Neighbours

variable {a b c i : Instruction} {window p rest : List Instruction}

theorem ZeroAndStep.exists_pair (step : ZeroAndStep window i) : ∃ b, window = [.zero, b] := by
  cases step with
  | right => exact ⟨_, rfl⟩
  | left => exact ⟨_, rfl⟩

theorem AreaWindow.exists_pair (fused : AreaWindow window i) : ∃ a b, window = [a, b] := by
  rcases fused with step | merge
  · obtain ⟨b, rfl⟩ := step.exists_pair
    exact ⟨_, b, rfl⟩
  · cases merge with
    | right => exact ⟨_, _, rfl⟩
    | left => exact ⟨_, _, rfl⟩

theorem TwoAreas.ne_zero (merge : TwoAreas [a, b] i) : a ≠ .zero := by
  cases merge <;> simp [Instruction.zero]

theorem areaPass_fuse?_eq_some_iff :
    areaPass.fuse? p = some (i, rest) ↔ ∃ window, AreaWindow window i ∧ p = window ++ rest := by
  constructor
  · intro fused
    obtain ⟨rule, member, fused⟩ := List.exists_of_findSome?_eq_some fused
    have known : rule = zeroStep ∨ rule = zeroMerge := by
      simpa [areaPass] using member
    rcases known with rfl | rfl
    · obtain ⟨window, step, same⟩ := (zeroStep_fuses p i rest).mp fused
      exact ⟨window, .inl step, same⟩
    · obtain ⟨window, merge, same⟩ := (zeroMerge_fuses p i rest).mp fused
      exact ⟨window, .inr merge, same⟩
  · rintro ⟨window, step | merge, same⟩
    · have fused := (zeroStep_fuses p i rest).mpr ⟨window, step, same⟩
      simp [Pass.fuse?, areaPass, fused]
    · have fused := (zeroMerge_fuses p i rest).mpr ⟨window, merge, same⟩
      -- The rule for steps is asked first, but it looks for a cleared cell.
      have first : zeroStep.fuse? p = none := by
        apply Option.eq_none_iff_forall_ne_some.mpr
        rintro ⟨j, rest'⟩ found
        obtain ⟨_, step, rfl⟩ := (zeroStep_fuses _ _ _).mp found
        obtain ⟨a, b, rfl⟩ := AreaWindow.exists_pair (.inr merge)
        obtain ⟨_, rfl⟩ := step.exists_pair
        exact merge.ne_zero (List.cons.inj same).1.symm
      simp [Pass.fuse?, areaPass, first, fused]

theorem areaPass_fuse?_pair : areaPass.fuse? (a :: b :: rest) = none ↔ Apart a b := by
  constructor
  · intro idle i fused
    have found : areaPass.fuse? (a :: b :: rest) = some (i, rest) :=
      areaPass_fuse?_eq_some_iff.mpr ⟨[a, b], fused, rfl⟩
    cases idle.symm.trans found
  · intro apart
    apply Option.eq_none_iff_forall_ne_some.mpr
    rintro ⟨i, rest'⟩ found
    obtain ⟨_, fused, same⟩ := areaPass_fuse?_eq_some_iff.mp found
    obtain ⟨_, _, rfl⟩ := fused.exists_pair
    cases same
    exact apart i fused

/-- Fused neighbours become an area, which is neither a cleared cell nor a step. -/
theorem AreaWindow.unstepped (fused : AreaWindow window i) (c : Instruction) :
    Unstepped i c ∧ Unstepped c i := by
  have area : i.op = .zeror ∨ i.op = .zerol := by
    rcases fused with (_ | _) | (_ | _) <;> simp [Instruction.zeror, Instruction.zerol]
  constructor
  · intro j step
    cases step <;> simp [Instruction.zero] at area
  · intro j step
    cases step <;> simp [Instruction.right, Instruction.left] at area

theorem apart_zero (a : Instruction) : Apart a .zero := by
  rintro i (step | merge)
  · cases step
  · cases merge

/-- What did not merge with an area does not merge with a larger one. -/
theorem TwoAreas.apart (merge : TwoAreas [a, b] i) (apart : Apart c a) : Apart c i := by
  intro j fused
  have merged : AreaWindow [a, b] i := .inr merge
  rcases fused with step | later
  · exact (merged.unstepped c).2 j step
  · cases merge with
    | @right n m _ _ fits =>
        cases later with
        | right fits' =>
            rw [Code.Fusion.toNat_add_of_fits fits] at fits'
            exact apart _ (.inr (.right (by omega)))
    | @left n m _ _ fits =>
        cases later with
        | left fits' =>
            rw [Code.Fusion.toNat_add_of_fits fits] at fits'
            exact apart _ (.inr (.left (by omega)))

end Neighbours

/-! ## What a scan leaves side by side -/

section Scanning

variable {pass : Pass} {R : Instruction → Instruction → Prop} {I : List Instruction → Prop}
  {p : List Instruction}

theorem Pass.fuse?_singleton (pass : Pass) (i : Instruction) : pass.fuse? [i] = none := by
  cases fused : pass.fuse? [i] with
  | none => rfl
  | some fusion =>
      have := length_of_fuse? fused
      simp at this

/-- A scan leaves side by side only what is related, if what it passes over is related to its
    neighbour, and a fusion keeps the relation with the neighbour on the left. Both may rely on an
    invariant of what has not been scanned. -/
theorem Pass.isChain_scan
    (fuses : ∀ i rest j after, I (i :: rest) → pass.fuse? (i :: rest) = some (j, after) →
      I (j :: after) ∧ ∀ h, R h i → R h j)
    (skips : ∀ i rest, I (i :: rest) → pass.fuse? (i :: rest) = none →
      I rest ∧ ∀ j ∈ rest.head?, R i j)
    (before : List Instruction) (fusions : Nat) (p : List Instruction)
    (scanned : before.reverse.IsChain R) (joint : ∀ h ∈ before.head?, ∀ i ∈ p.head?, R h i)
    (holds : I p) : (pass.scan before fusions p).1.IsChain R := by
  fun_induction Pass.scan pass before fusions p with
  | case1 before fusions => exact scanned
  | case2 before fusions i rest j after fused ih =>
      obtain ⟨holds', grows⟩ := fuses i rest j after holds fused
      refine ih scanned ?_ holds'
      simp only [List.head?_cons, Option.mem_some_iff, forall_eq'] at joint ⊢
      exact fun h member => grows h (joint h member)
  | case3 before fusions i rest unfused ih =>
      obtain ⟨holds', next⟩ := skips i rest holds unfused
      refine ih ?_ (by simpa using next) holds'
      rw [List.reverse_cons, List.isChain_append]
      refine ⟨scanned, .singleton i, ?_⟩
      simpa using joint

theorem areaPass_unstepped (p : List Instruction) : (areaPass.run p).1.IsChain Unstepped := by
  refine Pass.isChain_scan (I := fun _ => True) ?_ ?_ [] 0 p .nil (by simp) trivial
  · intro i rest j after _ fused
    obtain ⟨_, fused, _⟩ := areaPass_fuse?_eq_some_iff.mp fused
    exact ⟨trivial, fun h _ => (fused.unstepped h).2⟩
  · intro i rest _ unfused
    refine ⟨trivial, fun j member k step => ?_⟩
    obtain ⟨rest, rfl⟩ := List.head?_eq_some_iff.mp member
    exact areaPass_fuse?_pair.mp unfused k (.inl step)

theorem areaPass_apart (unstepped : p.IsChain Unstepped) : (areaPass.run p).1.IsChain Apart := by
  refine Pass.isChain_scan (I := fun q => q.IsChain Unstepped) ?_ ?_ [] 0 p .nil (by simp) unstepped
  · intro i rest j after unstepped found
    obtain ⟨_, fused, same⟩ := areaPass_fuse?_eq_some_iff.mp found
    obtain ⟨a, b, rfl⟩ := fused.exists_pair
    cases same
    obtain ⟨first, later⟩ := List.isChain_cons_cons.mp unstepped
    have merge : TwoAreas [i, b] j := fused.resolve_left (first j)
    refine ⟨List.isChain_cons.mpr ⟨fun c _ => ?_, later.tail⟩, fun h => merge.apart⟩
    exact (fused.unstepped c).1
  · intro i rest unstepped unfused
    refine ⟨unstepped.tail, fun j member => ?_⟩
    obtain ⟨rest, rfl⟩ := List.head?_eq_some_iff.mp member
    exact areaPass_fuse?_pair.mp unfused

theorem areaPass_idle_of_isChain (apart : p.IsChain Apart) : areaPass.Idle p := by
  induction p with
  | nil => exact areaPass.idle_nil
  | cons i p ih =>
      refine Pass.idle_cons.mpr ⟨?_, ih apart.tail⟩
      cases p with
      | nil => exact areaPass.fuse?_singleton i
      | cons j p => exact areaPass_fuse?_pair.mpr (List.isChain_cons_cons.mp apart).1

theorem areaPass_idle_twice (p : List Instruction) : areaPass.Idle (areaPass.twice p) :=
  areaPass_idle_of_isChain (areaPass_apart (areaPass_unstepped p))

end Scanning

/-! ## Cells cleared one after the other -/

/-- So many times, a cell is cleared and left by a step. -/
def clearings (step : Instruction) (m : Nat) : List Instruction :=
  (List.replicate m [.zero, step]).flatten

theorem clearings_succ (step : Instruction) (m : Nat) :
    clearings step (m + 1) = .zero :: step :: clearings step m := by
  simp [clearings, List.replicate_succ]

/-- A step by one cell, and areas in its direction. -/
structure Strides (step : Instruction) (area : UInt16 → Instruction) : Prop where
  starts : ZeroAndStep [.zero, step] (area 1)
  merges {n m : UInt16} (fits : n.toNat + m.toNat ≤ Instruction.maxOperand) :
    TwoAreas [area n, area m] (area (n + m))

theorem strides_right : Strides (.right 1) .zeror :=
  ⟨.right, fun fits => .right fits⟩

theorem strides_left : Strides (.left 1) .zerol :=
  ⟨.left, fun fits => .left fits⟩

section Clearings

variable {pass : Pass} {p after before rest : List Instruction} {i j step : Instruction}
  {fusions k : Nat} {area : UInt16 → Instruction} {n m : UInt16}

theorem Pass.scan_fused (fused : pass.fuse? (i :: rest) = some (j, after)) :
    pass.scan before fusions (i :: rest) = pass.scan before (fusions + 1) (j :: after) := by
  rw [Pass.scan]
  split
  · next fused' =>
      cases fused.symm.trans fused'
      rfl
  · next unfused => cases fused.symm.trans unfused

theorem Pass.scan_unfused (unfused : pass.fuse? (i :: rest) = none) :
    pass.scan before fusions (i :: rest) = pass.scan (i :: before) fusions rest := by
  rw [Pass.scan]
  split
  · next fused => cases unfused.symm.trans fused
  · rfl

namespace Strides

/-- The first scan turns every cell that is cleared and left into an area of its own. -/
theorem scan_clearings (strides : Strides step area) (before : List Instruction) (fusions m : Nat) :
    (areaPass.scan before fusions (clearings step m)).1 =
      before.reverse ++ List.replicate m (area 1) := by
  induction m generalizing before fusions with
  | zero => simp [clearings, Pass.scan]
  | succ m ih =>
      have fused : areaPass.fuse? (.zero :: step :: clearings step m) =
          some (area 1, clearings step m) :=
        areaPass_fuse?_eq_some_iff.mpr ⟨_, .inl strides.starts, rfl⟩
      have unfused : areaPass.fuse? (area 1 :: clearings step m) = none := by
        cases m with
        | zero => exact areaPass.fuse?_singleton _
        | succ m =>
            rw [clearings_succ]
            exact areaPass_fuse?_pair.mpr (apart_zero _)
      rw [clearings_succ, Pass.scan_fused fused, Pass.scan_unfused unfused, ih]
      simp [List.replicate_succ]

/-- The second scan adds them up. -/
theorem scan_areas (strides : Strides step area) (fusions : Nat) (sum : n.toNat + k = m.toNat) :
    (areaPass.scan [] fusions (area n :: List.replicate k (area 1))).1 = [area m] := by
  induction k generalizing n fusions with
  | zero =>
      have same : n = m := UInt16.toNat_inj.mp sum
      rw [List.replicate_zero, Pass.scan_unfused (areaPass.fuse?_singleton _), same, Pass.scan]
      rfl
  | succ k ih =>
      have small : m.toNat < 65536 := m.toNat_lt
      have fits : n.toNat + (1 : UInt16).toNat ≤ Instruction.maxOperand := by
        simp only [UInt16.toNat_one, Instruction.maxOperand]
        omega
      have fused : areaPass.fuse? (area n :: area 1 :: List.replicate k (area 1)) =
          some (area (n + 1), List.replicate k (area 1)) :=
        areaPass_fuse?_eq_some_iff.mpr ⟨_, .inr (strides.merges fits), rfl⟩
      rw [List.replicate_succ, Pass.scan_fused fused]
      apply ih
      rw [Code.Fusion.toNat_add_of_fits fits, UInt16.toNat_one]
      omega

theorem twice_clearings (strides : Strides step area) (some : m ≠ 0) :
    areaPass.twice (clearings step m.toNat) = [area m] := by
  have first := strides.scan_clearings [] 0 m.toNat
  obtain ⟨k, count⟩ : ∃ k, m.toNat = k + 1 :=
    Nat.exists_eq_succ_of_ne_zero fun zero => some (UInt16.toNat_inj.mp zero)
  rw [List.reverse_nil, List.nil_append, count, List.replicate_succ] at first
  rw [Pass.twice, count, Pass.run, Pass.run, first]
  apply strides.scan_areas
  rw [UInt16.toNat_one]
  omega

end Strides

end Clearings

/-! ## The optimizer on such cells -/

section Optimizer

variable {step : Instruction} {area : UInt16 → Instruction} {m : UInt16} {p : List Instruction}

theorem Rule.Fuses.none_of_no_loop {rule : Rule} {body : Windows} (fuses : rule.Fuses (Looped body))
    (plain : ∀ i ∈ p, i.IsPlain) (k : Nat) : rule.fuse? (p.drop k) = none := by
  apply Option.eq_none_iff_forall_ne_some.mpr
  rintro ⟨i, rest⟩ fused
  obtain ⟨_, ⟨opens, _, _⟩, same⟩ := (fuses _ i rest).mp fused
  refine (plain _ (List.mem_of_mem_drop (i := k) ?_)).1 opens
  rw [same]
  exact List.mem_cons_self

/-- Without jumps, only the passes without loops have something to do. -/
theorem idle_of_plain (plain : ∀ i ∈ p, i.IsPlain) :
    ∀ pass ∈ [clearPass, searchPass, movePass, mandelPass], pass.Idle p := by
  simp only [List.forall_mem_cons, Pass.idle_iff, clearPass, searchPass, movePass, mandelPass,
    List.not_mem_nil, false_implies, implies_true, and_true]
  exact ⟨clearLoop_fuses.none_of_no_loop plain, searchLoop_fuses.none_of_no_loop plain,
    ⟨moveLoop_fuses.none_of_no_loop plain, moveLoopSwapped_fuses.none_of_no_loop plain⟩,
    mandelLoop_fuses.none_of_no_loop plain⟩

theorem normal_singleton (i : Instruction) : Normal [i] :=
  normal_iff.mpr fun pass _ => Pass.idle_cons.mpr ⟨pass.fuse?_singleton i, pass.idle_nil⟩

theorem ZeroAndStep.ne_zero {a b i : Instruction} (leaves : ZeroAndStep [a, b] i) : b ≠ .zero := by
  cases leaves <;> decide

theorem dedupPass_idle_clearings (moves : step ≠ .zero) (m : Nat) :
    dedupPass.Idle (clearings step m) := by
  induction m with
  | zero => exact dedupPass.idle_nil
  | succ m ih =>
      have here : dedupPass.fuse? (.zero :: step :: clearings step m) = none := by
        simp [Pass.fuse?, dedupPass, zeroZero, fuseZeroZero, moves]
      have next : dedupPass.fuse? (step :: clearings step m) = none := by
        cases m with
        | zero => exact dedupPass.fuse?_singleton step
        | succ m => simp [clearings_succ, Pass.fuse?, dedupPass, zeroZero, fuseZeroZero, moves]
      rw [clearings_succ, Pass.idle_cons, Pass.idle_cons]
      exact ⟨here, next, ih⟩

theorem link_singleton {i : Instruction} (plain : i.IsPlain) : Program.link #[i] = #[i] := by
  rw [Program.link, Program.jumpPairs, Program.pairUp_plain plain]
  rfl

namespace Strides

theorem plain_clearings (strides : Strides step area) (m : Nat) :
    ∀ i ∈ clearings step m, i.IsPlain := by
  intro i member
  have known : i ∈ [.zero, step] := by
    obtain ⟨pair, among, member⟩ := List.mem_flatten.mp member
    rwa [List.eq_of_mem_replicate among] at member
  exact zeroAndStep_plain _ _ strides.starts i (List.mem_cons_of_mem _ known)

theorem plain_area (strides : Strides step area) (m : UInt16) : (area m).IsPlain := by
  have fits : m.toNat + (0 : UInt16).toNat ≤ Instruction.maxOperand := Nat.le_of_lt_succ m.toNat_lt
  exact twoAreas_plain _ _ (strides.merges fits) _ (by simp)

theorem code_sweep (strides : Strides step area) (some : m ≠ 0) (round : Nat) :
    (sweep round (clearings step m.toNat)).code = [area m] := by
  have plain := idle_of_plain (strides.plain_clearings m.toNat)
  simp only [List.forall_mem_cons] at plain
  have dedup := dedupPass_idle_clearings strides.starts.ne_zero m.toNat
  have early : [clearPass, dedupPass, searchPass, movePass].foldl (Progress.advance round)
      { code := clearings step m.toNat } = { code := clearings step m.toNat } := by
    apply foldl_advance_of_idle
    simp only [List.forall_mem_cons]
    exact ⟨plain.1, dedup, plain.2.1, plain.2.2.1, by simp⟩
  have order : passes = [clearPass, dedupPass, searchPass, movePass] ++
    [areaPass, areaPass, mandelPass] := rfl
  have last : mandelPass.Idle [area m] := normal_iff.mp (normal_singleton _) _ (by simp [passes])
  rw [sweep, order, List.foldl_append, early]
  calc (mandelPass.run (areaPass.twice (clearings step m.toNat))).1
    _ = (mandelPass.run [area m]).1 := by rw [strides.twice_clearings some]
    _ = [area m] := by rw [Pass.run, Pass.scan_of_idle [] 0 last]; rfl

theorem optimize_clearings (strides : Strides step area) (some : m ≠ 0) (fixpoint : Bool) :
    (optimize fixpoint (clearings step m.toNat).toArray).1 = #[area m] := by
  have fused : (rounds fixpoint 1 [] (clearings step m.toNat)).1 = [area m] := by
    rw [rounds, strides.code_sweep some]
    split
    · rfl
    · next more =>
        cases fixpoint with
        | false => simp at more
        | true => rw [rounds_of_normal _ (normal_singleton _)]
  rw [optimize]
  dsimp only
  rw [fused]
  exact link_singleton (strides.plain_area m)

end Strides

end Optimizer

/-- Two scans leave nothing to the pass for areas: none of its rules matches anywhere. So any
    number of cells that are cleared and left by one step, as far as an operand counts, become a
    single area, also if the optimizer does not repeat its passes. -/
theorem two_scans_settle_areas :
    (∀ (p : List Instruction) (k : Nat),
      zeroStep.fuse? ((areaPass.twice p).drop k) = none ∧
        zeroMerge.fuse? ((areaPass.twice p).drop k) = none) ∧
    ∀ m : UInt16, m ≠ 0 →
      (areaPass.twice (clearings (.right 1) m.toNat) = [.zeror m] ∧
        ∀ fixpoint, (optimize fixpoint (clearings (.right 1) m.toNat).toArray).1 = #[.zeror m]) ∧
      (areaPass.twice (clearings (.left 1) m.toNat) = [.zerol m] ∧
        ∀ fixpoint, (optimize fixpoint (clearings (.left 1) m.toNat).toArray).1 = #[.zerol m]) := by
  refine ⟨fun p k => ?_, fun m some => ⟨⟨?_, ?_⟩, ?_, ?_⟩⟩
  · have idle := Pass.idle_iff.mp (areaPass_idle_twice p)
    exact ⟨idle zeroStep (by simp [areaPass]) k, idle zeroMerge (by simp [areaPass]) k⟩
  · exact strides_right.twice_clearings some
  · exact strides_right.optimize_clearings some
  · exact strides_left.twice_clearings some
  · exact strides_left.optimize_clearings some

/-- Three cells, and as many as an operand counts. -/
theorem two_scans_settle_areas_full :
    (3 : UInt16) ≠ 0 ∧ (65535 : UInt16) ≠ 0 ∧
    clearings (.left 1) 3 = [.zero, .left 1, .zero, .left 1, .zero, .left 1] ∧
    (optimize false (clearings (.left 1) 3).toArray).1 = #[.zerol 3] ∧
    areaPass.twice (clearings (.right 1) 65535) = [.zeror 65535] ∧
    (optimize false (clearings (.right 1) 65535).toArray).1 = #[.zeror 65535] := by
  obtain ⟨_, few⟩ := two_scans_settle_areas.2 3 (by decide)
  obtain ⟨many, _⟩ := two_scans_settle_areas.2 65535 (by decide)
  have count : UInt16.toNat 65535 = 65535 := rfl
  rw [count] at many
  exact ⟨by decide, by decide, rfl, few.2 false, many.1, many.2 false⟩

end TapeLang.Peephole
