import TapeLang.Proofs.Symmetries

/-! # The tape in a mirror

Left and right are each other's image in a mirror: seen from the other end of the tape,
a program whose instructions are turned around does the same. The instruction that
diffuses has no image, since there is none that carries cells to the left.
-/

namespace TapeLang

namespace Tape

variable {t : Tape} {p : Int64}

/-- The position as far from the last cell as `p` is from the first, among `size` cells. -/
def opposite (size : Nat) (p : Int64) : Int64 :=
  Int64.ofInt (size - 1 - p.toInt)

/-- The tape read from its other end. -/
def mirror (t : Tape) : Tape where
  cells := t.cells.reverse
  ptr := opposite t.size t.ptr
  size_pos := by simpa using t.size_pos
  size_le := by simpa using t.size_le

@[simp] theorem size_mirror (t : Tape) : t.mirror.size = t.size := Array.size_reverse

theorem toInt_opposite (hp : t.InRange p) : (opposite t.size p).toInt = t.size - 1 - p.toInt := by
  have low := hp.1
  have high := hp.2
  have sized : t.size ≤ 2 ^ 48 := t.size_le
  exact Int64.toInt_ofInt_of_le (by omega) (by omega)

theorem inRange_opposite (hp : t.InRange p) : t.InRange (opposite t.size p) := by
  have same := toInt_opposite hp
  have low := hp.1
  have high := hp.2
  exact ⟨by omega, by omega⟩

theorem opposite_opposite (hp : t.InRange p) : opposite t.size (opposite t.size p) = p := by
  apply Int64.toInt_inj.mp
  rw [toInt_opposite (inRange_opposite hp), toInt_opposite hp]
  omega

theorem peek_mirror (hp : t.InRange p) : t.mirror.peek (opposite t.size p) = t.peek p := by
  have same := toInt_opposite hp
  have low := hp.1
  have high : p.toInt < t.cells.size := hp.2
  have inside : (opposite t.size p).toInt.toNat < t.cells.size := by
    rw [same, size]
    omega
  have index : t.cells.size - 1 - (opposite t.size p).toInt.toNat = p.toInt.toNat := by
    rw [same, size]
    omega
  simp only [peek, mirror, Array.getD_eq_getD_getElem?, Array.getElem?_reverse inside, index]

/-- A distance to the right is a distance to the left in the mirror. -/
theorem opposite_away (d : Int) (on : t.OnTape) :
    opposite t.size (t.away d) = t.mirror.away (-1 * d) := by
  have there := inRange_away d t
  have ptr : t.mirror.ptr.toInt = t.size - 1 - t.ptr.toInt := toInt_opposite on
  have low := there.1
  have high := there.2
  rw [toInt_away] at low high
  have turned : (t.size - 1 - t.ptr.toInt + -1 * d) % t.size =
      (t.size - 1 - (t.ptr.toInt + d) % t.size) % t.size := by
    rw [Int.sub_emod_emod]
    congr 1
    omega
  apply Int64.toInt_inj.mp
  rw [toInt_opposite there, toInt_away, toInt_away, size_mirror, ptr, turned]
  exact (Int.emod_eq_of_lt (by omega) (by omega)).symm

end Tape

/-- Reading tapes from their other end. -/
def mirroring : Symmetry where
  carry := Tape.mirror
  place := Tape.opposite
  origin := Tape.opposite
  sense := -1
  size_carry := Tape.size_mirror
  ptr_carry _ := rfl
  inRange_place := Tape.inRange_opposite
  inRange_origin := Tape.inRange_opposite
  place_origin := Tape.opposite_opposite
  origin_place := Tape.opposite_opposite
  peek_carry := Tape.peek_mirror
  place_away := Tape.opposite_away

/-- What does the same in the other direction; diffusion has no such image. -/
def Opcode.mirror : Opcode → Opcode
  | .right => .left
  | .left => .right
  | .searchr => .searchl
  | .searchl => .searchr
  | .amover => .amovel
  | .amovel => .amover
  | .zeror => .zerol
  | .zerol => .zeror
  | op => op

namespace Instruction

/-- The instruction in the other direction. -/
def mirror (i : Instruction) : Instruction :=
  { i with op := i.op.mirror }

/-- In a mirror an instruction does what its image does. -/
theorem carries_mirror {i : Instruction} (notMandel : i.op ≠ .mandel) :
    i.Carries mirroring i.mirror := by
  obtain ⟨op, n, m⟩ := i
  have there : ∀ d : Int, mirroring.sense * d = -d := Int.neg_one_mul
  have back : ∀ d : Int, mirroring.sense * -d = d := fun d => (there _).trans (Int.neg_neg d)
  cases op with
  | mandel => exact absurd rfl notMandel
  | halt | add | zero | jez | jnz | write | read | unassigned => exact carries_of_undirected rfl
  | right => exact .of_onTape (exec_right n m) (exec_left n m) (Symmetry.shift_carry (there _))
  | left => exact .of_onTape (exec_left n m) (exec_right n m) (Symmetry.shift_carry (back _))
  | searchr => exact .of_test (exec_searchr n m) (exec_searchl n m) (Symmetry.shift_carry (there _))
  | searchl => exact .of_test (exec_searchl n m) (exec_searchr n m) (Symmetry.shift_carry (back _))
  | amover =>
      exact .of_onTape (exec_amover n m) (exec_amovel n m) (Symmetry.pour_away_carry (there _))
  | amovel =>
      exact .of_onTape (exec_amovel n m) (exec_amover n m) (Symmetry.pour_away_carry (back _))
  | zeror => exact .of_onTape (exec_zeror n m) (exec_zerol n m) (Symmetry.sweep_carry (there 1) _)
  | zerol => exact .of_onTape (exec_zerol n m) (exec_zeror n m) (Symmetry.sweep_carry (back 1) _)

end Instruction

namespace Machine

/-- The machine in a mirror: the tape is read from its other end, and the instructions are turned
    around. -/
def mirror (m : Machine) : Machine :=
  { m with program := m.program.map Instruction.mirror, state := m.state.onTape Tape.mirror }

/-- Runs commute with a mirror: the machine in it ends exactly if the machine itself does, after as
    many steps, at the same place, in the same way and with the same channels, and its tape is the
    other one read from its other end. -/
theorem run_mirror {m : Machine} (limit : Nat) (on : m.tape.OnTape)
    (noMandel : ∀ i ∈ m.program, i.op ≠ .mandel) :
    m.mirror.run limit = (m.run limit).map (Prod.map mirror id) :=
  resume_carried limit (m := { m with count := 0 })
    (fun i member => Instruction.carries_mirror (noMandel i member)) on

/-- Five cells with the pointer on the last but one. Every instruction that has a direction is
    reached, and some of them go over an end. -/
def bothWays : Machine where
  program := #[.amover 7, .right 3, .searchl 1, .left 9, .write, .amovel 12, .left 12, .searchr 3,
    .zeror 3, .zerol 3, .add 5, .write, .halt]
  state := ⟨⟨#[0, 4, 7, 1, 9], 3, by decide, by decide⟩, { output := some {} }⟩

theorem run_mirror_bothWays : ∃ last, bothWays.tape.OnTape ∧
    (∀ i ∈ bothWays.program, i.op ≠ .mandel) ∧
    bothWays.run 40 = some (last, .ok ()) ∧
    bothWays.mirror.run 40 = some (last.mirror, .ok ()) ∧
    last.tape.cells = #[0, 0, 16, 5, 0] ∧ last.tape.ptr = 3 ∧
    last.mirror.tape.cells = #[0, 5, 16, 0, 0] ∧ last.mirror.tape.ptr = 1 := by
  have on : bothWays.tape.OnTape := by decide
  have noMandel : ∀ i ∈ bothWays.program, i.op ≠ .mandel := by decide
  have ended : (bothWays.run 40).map (fun r => (r.1.tape, r.2)) =
      some (⟨#[0, 0, 16, 5, 0], 3, by decide, by decide⟩, .ok ()) := by decide +kernel
  obtain ⟨⟨last, outcome⟩, run, same⟩ := Option.map_eq_some_iff.mp ended
  obtain ⟨tape, rfl⟩ := Prod.mk.inj same
  have turned : last.mirror.tape = last.tape.mirror := rfl
  refine ⟨last, on, noMandel, run, ?_, ?_⟩
  · rw [run_mirror 40 on noMandel, run]
    rfl
  · rw [turned, tape]
    decide +kernel

end Machine

end TapeLang
