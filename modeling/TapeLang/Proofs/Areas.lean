import TapeLang.Proofs.LoopWindows

/-! # Areas of cleared cells

Clearing an area is one instruction, with a path of its own for areas that reach
around the tape. On either path it does what clearing the cells one by one does:
it clears the cells of the area and no others, and two areas in a row are one.
-/

namespace TapeLang

/-! ## Areas on a tape -/

namespace Tape

variable {t : Tape} {d : Int} {n m : Nat}

/-- What clearing `n` cells, and then `m` cells, in the direction `d` does to a tape. -/
structure AreaLaws (area steps : Nat → Tape → Tape) (d : Int) (n m : Nat) (t : Tape) : Prop where
  /-- The cells are cleared one by one. -/
  stepwise : area n t = steps n t
  /-- Every cell of the area is cleared. -/
  cleared : ∀ q, t.InRange q → (∃ i < n, q.toInt = (t.ptr.toInt + d * i) % t.size) →
    (area n t).peek q = 0
  /-- No other cell is touched. -/
  kept : ∀ q, t.InRange q → (∀ i < n, q.toInt ≠ (t.ptr.toInt + d * i) % t.size) →
    (area n t).peek q = t.peek q
  /-- The pointer is left behind the area. -/
  behind : (area n t).ptr.toInt = (t.ptr.toInt + d * n) % t.size
  /-- Two areas in a row are one. -/
  merged : area m (area n t) = area (n + m) t

theorem eq_away_iff {q : Int64} : q = t.away d ↔ q.toInt = (t.ptr.toInt + d) % t.size := by
  rw [← Int64.toInt_inj, toInt_away]

/-- Whatever clears areas as a sweep does, obeys the laws. -/
theorem AreaLaws.of_sweep {area steps : Nat → Tape → Tape} (on : t.OnTape)
    (fits : t.size + n + m ≤ reach)
    (areas : ∀ {t n}, t.OnTape → t.size + n ≤ reach → area n t = t.sweep d n)
    (single : ∀ n {t}, t.OnTape → steps n t = t.sweep d n) : AreaLaws area steps d n m t := by
  have first : area n t = t.sweep d n := areas on (by omega)
  have on' : (t.sweep d n).OnTape := onTape_sweep n on
  have second : area m (t.sweep d n) = (t.sweep d n).sweep d m :=
    areas on' (by rw [size_sweep]; omega)
  have both : area (n + m) t = t.sweep d (n + m) := areas on (by omega)
  refine ⟨?_, ?_, ?_, ?_, ?_⟩
  · rw [first, single n on]
  · rintro q hq ⟨i, lt, here⟩
    rw [first]
    rcases peek_sweep (d := d) n on hq with ⟨cleared, _⟩ | ⟨_, apart⟩
    · exact cleared
    · exact absurd (eq_away_iff.mpr here) (apart i lt)
  · intro q hq apart
    rw [first]
    rcases peek_sweep (d := d) n on hq with ⟨_, i, lt, here⟩ | ⟨kept, _⟩
    · exact absurd (eq_away_iff.mp here) (apart i lt)
    · exact kept
  · rw [first, ptr_sweep n on, toInt_away]
  · rw [first, second, both, sweep_add]

end Tape

/-! ## Areas in programs -/

/-- Wherever the instructions stand in a program, control passes them, and this is what they do
    to the tape. -/
def State.PassesOver (s : State) (is : List Instruction) (effect : Tape → Tape) : Prop :=
  ∀ before after s', Crosses before after is s s' ↔ s' = s.onTape effect

/-- What instructions that clear `n` and `m` cells do, and what takes their place if a cell is
    cleared and left by one move at a time. -/
structure Instruction.AreaLaws (clear : UInt16 → Instruction) (move : Instruction)
    (area : Nat → Tape → Tape) (n m : UInt16) (s : State) : Prop where
  fused : s.PassesOver [clear n] (area n.toNat)
  unfused : s.PassesOver (List.replicate n.toNat [.zero, move]).flatten (area n.toNat)
  inTurn : s.PassesOver [clear n, clear m] (area (n.toNat + m.toNat))
  merged : n.toNat + m.toNat ≤ Instruction.maxOperand →
    s.PassesOver [clear (n + m)] (area (n.toNat + m.toNat))

section Passing

variable {is : List Instruction} {g h : Tape → Tape} {s : State} {d : Int}

theorem Straight.passesOver (straight : Straight is g) (plain : ∀ i ∈ is, i.IsPlain)
    (on : s.tape.OnTape) : s.PassesOver is g := by
  intro before after s'
  have layout : Linked (.line is .done) is := by
    simpa using Layout.line (q := []) plain .done
  have placed : Placed (before ++ (is ++ after)).toArray _ before.length :=
    layout.placed (v := after) (by simp)
  simp only [Crosses, straight.arrives_iff placed (Nat.le_refl _) on, Machine.arrives_of_there]
  simp [eq_comm]

theorem State.PassesOver.congr (passes : s.PassesOver is g) (same : g s.tape = h s.tape) :
    s.PassesOver is h := by
  intro before after s'
  rw [passes before after s', State.onTape_congr same]

/-- Clearing and moving in turns is a sweep. -/
theorem straight_steps {move : Instruction} (moves : move.Acts (·.shift d)) (n : Nat) :
    Straight (List.replicate n [.zero, move]).flatten (·.sweep d n) := by
  induction n with
  | zero => exact .nil
  | succ n ih =>
      rw [List.replicate_succ, List.flatten_cons]
      have steps := Straight.cons Instruction.acts_zero.exec (.cons moves.exec ih)
      exact steps

theorem Instruction.AreaLaws.of_sweep {clear : UInt16 → Instruction} {move : Instruction}
    {area : Nat → Tape → Tape} (on : s.tape.OnTape)
    (areas : ∀ {n}, s.tape.size + n ≤ Tape.reach → area n s.tape = s.tape.sweep d n)
    (clears : ∀ n, (clear n).Acts (·.sweep d n.toNat)) (moves : move.Acts (·.shift d))
    (plain : ∀ n, (clear n).IsPlain) (plain' : move.IsPlain) (n m : UInt16) :
    Instruction.AreaLaws clear move area n m s := by
  have fits : s.tape.size + (n.toNat + m.toNat) ≤ Tape.reach := by
    have sized : s.tape.size ≤ Tape.maxSize := s.tape.size_le
    have := n.toNat_lt
    have := m.toNat_lt
    simp only [Tape.reach, Tape.maxSize] at sized ⊢
    omega
  have first : area n.toNat s.tape = s.tape.sweep d n.toNat := areas (by omega)
  have both : area (n.toNat + m.toNat) s.tape = (s.tape.sweep d n.toNat).sweep d m.toNat := by
    rw [areas fits, Tape.sweep_add]
  have one : ∀ k, s.PassesOver [clear k] (·.sweep d k.toNat) := by
    intro k
    have straight := Straight.cons (h := fun t => t) (clears k).exec .nil
    exact straight.passesOver (by simp [plain]) on
  have two : Straight [clear n, clear m] fun t => (t.sweep d n.toNat).sweep d m.toNat :=
    .cons (clears n).exec (.cons (h := fun t => t) (clears m).exec .nil)
  refine ⟨(one n).congr first.symm, ?_, ?_, ?_⟩
  · refine ((straight_steps moves n.toNat).passesOver ?_ on).congr first.symm
    intro i member
    obtain ⟨pair, inside, member⟩ := List.mem_flatten.mp member
    rw [List.eq_of_mem_replicate inside, List.mem_pair] at member
    rcases member with rfl | rfl
    · decide
    · exact plain'
  · exact (two.passesOver (by simp [plain]) on).congr both.symm
  · intro small
    have sum := Code.Fusion.toNat_add_of_fits small
    apply (one (n + m)).congr
    rw [sum, areas fits]

end Passing

/-- Areas are cleared cell by cell, in either direction and also where they reach around the tape:
    as an operation on tapes for all sizes that a word can say, and as an instruction for all
    operands, wherever it stands in a program. -/
theorem areas_cleared_cell_by_cell {s : State} (on : s.tape.OnTape) :
    (∀ n m, s.tape.size + n + m ≤ Tape.reach →
      Tape.AreaLaws Tape.zeroRight Tape.sweepRight 1 n m s.tape ∧
      Tape.AreaLaws Tape.zeroLeft Tape.sweepLeft (-1) n m s.tape) ∧
    ∀ n m, Instruction.AreaLaws .zeror (.right 1) Tape.zeroRight n m s ∧
      Instruction.AreaLaws .zerol (.left 1) Tape.zeroLeft n m s := by
  refine ⟨fun n m fits => ⟨?_, ?_⟩, fun n m => ⟨?_, ?_⟩⟩
  · exact .of_sweep on fits Tape.zeroRight_eq_sweep_of_reach Tape.sweepRight_eq_sweep
  · exact .of_sweep on fits Tape.zeroLeft_eq_sweep_of_reach Tape.sweepLeft_eq_sweep
  · exact .of_sweep on (Tape.zeroRight_eq_sweep_of_reach on) (Instruction.acts_zeror · 0)
      (Instruction.acts_right 1 0) (by simp [Instruction.IsPlain]) (by decide) n m
  · exact .of_sweep on (Tape.zeroLeft_eq_sweep_of_reach on) (Instruction.acts_zerol · 0)
      (Instruction.acts_left 1 0) (by simp [Instruction.IsPlain]) (by decide) n m

/-- Three cells with the pointer on the last. -/
def State.lastOfThree : State :=
  ⟨⟨#[5, 6, 7], 2, by decide, by decide⟩, {}⟩

/-- Two areas that end on the tape, and one that reaches around it. -/
theorem areas_cleared_cell_by_cell_lastOfThree : State.lastOfThree.tape.OnTape ∧
    State.lastOfThree.tape.size + 2 + 2 ≤ Tape.reach ∧
    (State.lastOfThree.tape.zeroRight 2).cells = #[0, 6, 0] ∧
    (State.lastOfThree.tape.zeroRight 4).cells = #[0, 0, 0] ∧
    (State.lastOfThree.tape.zeroLeft 2).cells = #[5, 0, 0] ∧
    (State.lastOfThree.tape.zeroRight 2).zeroRight 2 = State.lastOfThree.tape.zeroRight 4 ∧
    State.lastOfThree.PassesOver [.zeror 2, .zeror 2] (·.zeroRight 4) ∧
    State.lastOfThree.PassesOver [.zeror 4] (·.zeroRight 4) := by
  have on : State.lastOfThree.tape.OnTape := by decide
  have fits : State.lastOfThree.tape.size + 2 + 2 ≤ Tape.reach := by decide
  obtain ⟨tapes, instructions⟩ := areas_cleared_cell_by_cell on
  exact ⟨on, fits, by decide, by decide, by decide, (tapes 2 2 fits).1.merged,
    (instructions 2 2).1.inTurn, (instructions 2 2).1.merged (by decide)⟩

end TapeLang
