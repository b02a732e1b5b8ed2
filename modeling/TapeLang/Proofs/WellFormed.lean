import Mathlib.Tactic.MkIffOfInductiveProp
import TapeLang.Proofs.Folding
import TapeLang.Proofs.Linking
import TapeLang.Proofs.MachineRuns

/-! # Lowered programs are well formed

The machine trusts its programs: a stale jump or a search that makes no steps
would hang it. In the program of a block the jumps of a loop lead to each other,
opcodes name operations, and operands are used or zero and never without
effect. Every rule keeps this of the instructions, whatever window it fuses, and
linking touches only the distances of jumps.
-/

namespace TapeLang

/-- Operands with an effect: something is added, moves and areas have an extent,
    and diffusion reaches as far as an operand can say. -/
def Instruction.Effective (i : Instruction) : Prop :=
  match i.op with
  | .add => 1 ≤ i.arg.toNat ∧ i.arg.toNat ≤ 255
  | .right | .left | .searchl | .searchr | .amovel | .amover | .zerol | .zeror => 1 ≤ i.arg.toNat
  | .mandel =>
    1 ≤ i.arg.toNat ∧ 1 ≤ i.arg2.toNat ∧ i.arg.toNat + i.arg2.toNat ≤ Instruction.maxOperand
  | .halt | .jez | .jnz | .zero | .write | .read | .unassigned _ => True

/-- The opcode names an operation, operands it does not use are zero, and those
    it uses have an effect. -/
@[mk_iff]
structure Instruction.Proper (i : Instruction) : Prop where
  named : i.op.isNamed = true
  unused : i.op.arity < 1 → i.arg = 0
  unused2 : i.op.arity < 2 → i.arg2 = 0
  effective : i.Effective

/-- What the machine relies on. -/
structure Program.WellFormed (p : Program) : Prop where
  linked : p.WellLinked
  /-- Every jump has a partner. -/
  paired : ∀ k i, p[k]? = some i → i.op = .jez ∨ i.op = .jnz →
    ∃ pair ∈ p.jumpPairs, k = pair.1 ∨ k = pair.2
  /-- The operands of a pair are the distance between the two. -/
  distances : ∀ pair ∈ p.jumpPairs, ∃ o e, p[pair.1]? = some o ∧ p[pair.2]? = some e ∧
    o.op = .jez ∧ e.op = .jnz ∧ pair.1 + o.arg.toNat = pair.2 ∧ pair.1 + e.arg.toNat = pair.2
  proper : ∀ i ∈ p.toList, i.Proper

section Jumps

variable {program : Program} {c : Code} {k : Nat}

theorem Placed.paired (placed : Placed program c k) :
    ∀ j i, k ≤ j → j < k + c.length → program[j]? = some i → i.op = .jez ∨ i.op = .jnz →
      ∃ pair ∈ c.pairs k, j = pair.1 ∨ j = pair.2 := by
  induction placed with
  | done =>
      intro j i low high
      rw [Code.length] at high
      omega
  | @plain i rest k found isPlain later ih =>
      intro j i' low high here jump
      rcases Nat.eq_or_lt_of_le low with rfl | low
      · cases found.symm.trans here
        exact absurd jump (by simp [isPlain.1, isPlain.2])
      · rw [Code.length] at high
        exact ih j i' low (by omega) here jump
  | @loop o e body rest k _ _ _ _ _ _ _ _ ihInside ihLater =>
      intro j i low high here jump
      rw [Code.length] at high
      simp only [Code.pairs, List.mem_append, List.mem_cons]
      by_cases ends : j = k ∨ j = k + (body.length + 1)
      · exact ⟨_, .inr (.inl rfl), ends⟩
      by_cases within : j < k + (body.length + 1)
      · obtain ⟨pair, member, named⟩ := ihInside j i (by omega) (by omega) here jump
        exact ⟨pair, .inl member, named⟩
      · obtain ⟨pair, member, named⟩ := ihLater j i (by omega) (by omega) here jump
        exact ⟨pair, .inr (.inr member), named⟩

theorem Placed.distances (placed : Placed program c k) :
    ∀ pair ∈ c.pairs k, ∃ o e, program[pair.1]? = some o ∧ program[pair.2]? = some e ∧
      o.op = .jez ∧ e.op = .jnz ∧ pair.1 + o.arg.toNat = pair.2 ∧ pair.1 + e.arg.toNat = pair.2 := by
  induction placed with
  | done => simp [Code.pairs]
  | plain _ _ _ ih => exact ih
  | @loop o e body rest k found opens out _ found' closes back _ ihInside ihLater =>
      intro pair member
      simp only [Code.pairs, List.mem_append, List.mem_cons] at member
      rcases member with member | rfl | member
      · exact ihInside pair member
      · exact ⟨o, e, found, found', opens, closes, by simp [out], by simp [back]⟩
      · exact ihLater pair member

theorem Program.WellLinked.wellFormed (linked : program.WellLinked)
    (proper : ∀ i ∈ program.toList, i.Proper) : program.WellFormed := by
  obtain ⟨c, layout⟩ := linked
  have placed := layout.placed_whole
  refine ⟨⟨c, layout⟩, ?_, ?_, proper⟩
  · intro k i found jump
    obtain ⟨inside, _⟩ := Array.getElem?_eq_some_iff.mp found
    rw [← Array.length_toList, layout.length_eq] at inside
    rw [layout.jumpPairs_eq]
    exact placed.paired k i (Nat.zero_le k) (by omega) found jump
  · rw [layout.jumpPairs_eq]
    exact placed.distances

end Jumps

/-! ## Proper instructions -/

namespace Instruction

theorem Proper.of_alike {i j : Instruction} (alike : i.Alike j) (proper : i.Proper) : j.Proper := by
  by_cases plain : i.IsPlain
  · rwa [alike.eq_of_isPlain plain]
  · obtain ⟨op, arg, arg2⟩ := i
    obtain ⟨op', arg', arg2'⟩ := j
    obtain ⟨rfl, rfl, _⟩ := alike
    have jump : op' = .jez ∨ op' = .jnz := by
      simpa [IsPlain, imp_iff_not_or] using plain
    refine ⟨proper.named, ?_, proper.unused2, ?_⟩
    · rcases jump with rfl | rfl <;> simp [Opcode.arity]
    · rcases jump with rfl | rfl <;> trivial

theorem proper_jez (distance : UInt16) : (jez distance).Proper :=
  ⟨rfl, by simp [jez, Opcode.arity], fun _ => rfl, trivial⟩

theorem proper_jnz (distance : UInt16) : (jnz distance).Proper :=
  ⟨rfl, by simp [jnz, Opcode.arity], fun _ => rfl, trivial⟩

theorem one_le_toNat {n : UInt16} (some : n ≠ 0) : 1 ≤ n.toNat :=
  Nat.pos_of_ne_zero fun zero => some (UInt16.toNat_inj.mp zero)

end Instruction

theorem Emitted.proper {i : Instruction} (emitted : Emitted i) : i.Proper := by
  cases emitted with
  | @add delta changes =>
      have small := delta.toNat_lt
      have some : delta.toNat ≠ 0 := fun zero => changes (UInt8.toNat_inj.mp zero)
      refine ⟨rfl, by simp [Instruction.add, Opcode.arity], fun _ => rfl, ?_⟩
      simp only [Instruction.add, Instruction.Effective, UInt8.toNat_toUInt16]
      omega
  | right moves =>
      exact ⟨rfl, by simp [Instruction.right, Opcode.arity], fun _ => rfl,
        Instruction.one_le_toNat moves⟩
  | left moves =>
      exact ⟨rfl, by simp [Instruction.left, Opcode.arity], fun _ => rfl,
        Instruction.one_le_toNat moves⟩
  | write | read | halt => exact ⟨rfl, fun _ => rfl, fun _ => rfl, trivial⟩

namespace Peephole

/-- Windows of proper instructions are replaced by proper ones. -/
def KeepsProper (windows : Windows) : Prop :=
  ∀ is i, windows is i → (∀ j ∈ is, j.Proper) → i.Proper

section Windows

open Instruction (proper_iff Effective one_le_toNat)

theorem KeepsProper.looped {body : Windows} (keeps : KeepsProper body) : KeepsProper (Looped body) := by
  rintro _ i ⟨_, inside, _⟩ proper
  apply keeps _ i inside
  intro j member
  apply proper
  simp [member]

theorem clearBody_keepsProper : KeepsProper ClearBody := by
  rintro _ _ (_ | _ | _) _ <;> exact ⟨rfl, fun _ => rfl, fun _ => rfl, trivial⟩

theorem zeroTwice_keepsProper : KeepsProper ZeroTwice := by
  rintro _ _ ⟨⟩ proper
  exact proper _ (by simp)

theorem searchBody_keepsProper : KeepsProper SearchBody := by
  rintro _ _ (moves | moves) _
  · simpa [proper_iff, Instruction.searchr, Opcode.isNamed, Opcode.arity, Effective] using
      one_le_toNat moves
  · simpa [proper_iff, Instruction.searchl, Opcode.isNamed, Opcode.arity, Effective] using
      one_le_toNat moves

theorem Trip.proper {there back i : Instruction} (trip : Trip there back i) : i.Proper := by
  cases trip with
  | right moves =>
      simpa [proper_iff, Instruction.amover, Opcode.isNamed, Opcode.arity, Effective] using
        one_le_toNat moves
  | left moves =>
      simpa [proper_iff, Instruction.amovel, Opcode.isNamed, Opcode.arity, Effective] using
        one_le_toNat moves

theorem takeGive_keepsProper : KeepsProper TakeGive := by
  rintro _ _ ⟨trip⟩ _
  exact trip.proper

theorem giveTake_keepsProper : KeepsProper GiveTake := by
  rintro _ _ ⟨trip⟩ _
  exact trip.proper

theorem zeroAndStep_keepsProper : KeepsProper ZeroAndStep := by
  rintro _ _ (_ | _) _ <;>
    simp [proper_iff, Instruction.zeror, Instruction.zerol, Opcode.isNamed, Opcode.arity, Effective]

theorem twoAreas_keepsProper : KeepsProper TwoAreas := by
  rintro _ _ (fits | fits) proper
  all_goals
    rename_i n m a b
    have first : 1 ≤ n.toNat := (proper _ (List.mem_cons_self ..)).effective
    have sum := Code.Fusion.toNat_add_of_fits fits
    refine ⟨rfl, by simp [Instruction.zeror, Instruction.zerol, Opcode.arity], fun _ => rfl, ?_⟩
    simp only [Instruction.zeror, Instruction.zerol, Effective, sum]
    omega

theorem diffuseBody_keepsProper : KeepsProper DiffuseBody := by
  rintro _ _ ⟨sum⟩ proper
  rename_i x n q a b c
  have out : 1 ≤ x.toNat := (proper ⟨.right, x, a⟩ (by simp)).effective
  have pour : 1 ≤ n.toNat := (proper ⟨.amover, n, b⟩ (by simp)).effective
  have home : q.toNat < 65536 := q.toNat_lt
  refine ⟨rfl, by simp [Instruction.mandel, Opcode.arity],
    by simp [Instruction.mandel, Opcode.arity], out, pour, ?_⟩
  simp only [Instruction.mandel, Instruction.maxOperand]
  omega

end Windows

theorem Rule.Fuses.keepsProper {rule : Rule} {windows : Windows} (fuses : rule.Fuses windows)
    (keeps : KeepsProper windows) : rule.Keeps fun q => ∀ j ∈ q, j.Proper := by
  intro u p rest i fused proper
  obtain ⟨window, inside, rfl⟩ := (fuses p i rest).mp fused
  simp only [List.forall_mem_append, List.forall_mem_cons] at proper ⊢
  exact ⟨proper.1, keeps window i inside proper.2.1, proper.2.2⟩

theorem passes_keepProper :
    ∀ pass ∈ passes, ∀ rule ∈ pass.rules, rule.Keeps fun q => ∀ j ∈ q, j.Proper :=
  forall_rules (clearLoop_fuses.keepsProper clearBody_keepsProper.looped)
    (zeroZero_fuses.keepsProper zeroTwice_keepsProper)
    (searchLoop_fuses.keepsProper searchBody_keepsProper.looped)
    (moveLoop_fuses.keepsProper takeGive_keepsProper.looped)
    (moveLoopSwapped_fuses.keepsProper giveTake_keepsProper.looped)
    (zeroStep_fuses.keepsProper zeroAndStep_keepsProper)
    (zeroMerge_fuses.keepsProper twoAreas_keepsProper)
    (mandelLoop_fuses.keepsProper diffuseBody_keepsProper.looped)

theorem optimize_proper (fixpoint : Bool) {p : Program} (proper : ∀ i ∈ p.toList, i.Proper) :
    ∀ i ∈ (optimize fixpoint p).1.toList, i.Proper := by
  have fused := rounds_keeps passes_keepProper fixpoint 1 [] p.toList proper
  have alike := Program.alike_link (rounds fixpoint 1 [] p.toList).1.toArray
  intro j member
  obtain ⟨i, member', alike⟩ := alike.exists_of_mem member
  exact (fused i member').of_alike alike

end Peephole

/-! ## Lowering -/

section Lowering

variable {how : Lowering} {l before : Lowered} {p : Pending}

theorem Lowered.polish_proper (proper : ∀ i ∈ l.code.toList, i.Proper) :
    ∀ i ∈ (l.polish how).code.toList, i.Proper := by
  unfold polish
  split
  · exact Peephole.optimize_proper how.fixpoint proper
  · exact proper

theorem Block.lowerAfter_proper {b : Block} (ok : b.lowerAfter how before p = .ok l)
    (proper : ∀ i ∈ before.code.toList, i.Proper) : ∀ i ∈ l.code.toList, i.Proper := by
  have due : ∀ {is : List Instruction} {code : Program}, (∀ i ∈ code.toList, i.Proper) →
      (∀ i ∈ is, Emitted i) → ∀ i ∈ (code ++ is).toList, i.Proper := by
    intro is code proper emitted
    simp only [Array.toList_appendList, List.forall_mem_append]
    exact ⟨proper, fun i member => (emitted i member).proper⟩
  induction b generalizing before p l with
  | empty =>
      cases ok
      exact due proper p.emit_emitted
  | command c rest ih =>
      rw [lowerAfter] at ok
      split at ok
      · cases ok
      · next taken => exact ih ok (due proper (Pending.take_emitted taken))
  | loop body rest ihBody ihRest =>
      rw [lowerAfter] at ok
      split at ok
      · cases ok
      · next lowered inner =>
          split at ok
          · cases ok
          · next enclosed outer =>
              obtain ⟨d, _, same⟩ := Lowered.toList_enclose outer
              refine ihRest ok ?_
              rw [same]
              simp only [List.forall_mem_append, List.forall_mem_cons]
              exact ⟨due proper p.emit_emitted, Instruction.proper_jez d,
                Lowered.polish_proper (ihBody inner (by simp)), Instruction.proper_jnz d, by simp⟩

theorem Block.lower_proper {b : Block} (ok : b.lower how = .ok l) : ∀ i ∈ l.code.toList, i.Proper := by
  unfold lower at ok
  split at ok
  · cases ok
  · next lowered inner =>
      cases ok
      exact Lowered.polish_proper (lowerAfter_proper inner (by simp))

end Lowering

/-- The program of a block is well formed, however it was lowered. -/
theorem Block.lower_wellFormed {how : Lowering} {b : Block} {l : Lowered}
    (ok : b.lower how = .ok l) : Program.WellFormed l.code := by
  obtain ⟨c, linked, _⟩ := lower_spells ok
  exact Program.WellLinked.wellFormed ⟨c, linked⟩ (lower_proper ok)

/-- `+>[>[->+<]<<][-]>[>>][.-]` -/
def Block.medley : Block :=
  .command .inc (.command .right (.loop (.command .right (.loop (.command .dec (.command .right
    (.command .inc (.command .left .empty)))) (.command .left (.command .left .empty))))
    (.loop (.command .dec .empty) (.command .right (.loop (.command .right (.command .right .empty))
      (.loop (.command .output (.command .dec .empty)) (.command .halt .empty)))))))

theorem Block.lower_wellFormed_medley : ∃ l, Block.medley.lower {} = .ok l ∧
    l.code = #[.add 1, .right 1, .mandel 1 1, .zeror 1, .searchr 2, .jez 3, .write, .add 255, .jnz 3,
      .halt] ∧ Program.WellFormed l.code := by
  have code : (Block.medley.lower {}).map (·.code) = .ok #[.add 1, .right 1, .mandel 1 1, .zeror 1,
      .searchr 2, .jez 3, .write, .add 255, .jnz 3, .halt] := by decide +kernel
  obtain ⟨tallies, ok⟩ := Lowered.exists_of_code code
  exact ⟨_, ok, rfl, lower_wellFormed ok⟩

end TapeLang
