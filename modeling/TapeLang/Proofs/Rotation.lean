import TapeLang.Proofs.Symmetries

/-! # Turning the tape

A tape is a circle: which of its cells is called the first does not matter.
`Tape.rotate` carries all cells around it, and the pointer with them. This is a
symmetry that keeps directions, so an instruction does the same before and after
it, and so do runs of any length.
-/

namespace TapeLang

namespace Tape

variable {t : Tape} {p : Int64}

/-- The position that the cell at `p` comes to if all cells are carried `k` cells to the right. -/
def turn (k : Int) (t : Tape) (p : Int64) : Int64 :=
  Int64.ofInt ((p.toInt + k) % t.size)

/-- Carry all cells and the pointer `k` cells to the right, around the end of the tape. -/
def rotate (k : Int) (t : Tape) : Tape where
  cells := Array.ofFn fun j : Fin t.size => t.cells.getD ((j.val - k) % t.size).toNat 0
  ptr := t.turn k t.ptr
  size_pos := by
    rw [Array.size_ofFn]
    exact t.size_pos
  size_le := by
    rw [Array.size_ofFn]
    exact t.size_le

@[simp] theorem size_rotate (k : Int) (t : Tape) : (t.rotate k).size = t.size := by
  simp [rotate, size]

@[simp] theorem ptr_rotate (k : Int) (t : Tape) : (t.rotate k).ptr = t.turn k t.ptr := rfl

/-! ## Positions -/

theorem toInt_turn (k : Int) (t : Tape) (p : Int64) :
    (t.turn k p).toInt = (p.toInt + k) % t.size :=
  toInt_away k { t with ptr := p }

theorem inRange_turn (k : Int) (t : Tape) (p : Int64) : t.InRange (t.turn k p) :=
  inRange_of_toInt_eq (toInt_turn k t p)

/-- Turning back undoes a turn. -/
theorem turn_turn_neg (k : Int) (hp : t.InRange p) : t.turn k (t.turn (-k) p) = p := by
  apply Int64.toInt_inj.mp
  have home : p.toInt + -k + k = p.toInt := by omega
  rw [toInt_turn, toInt_turn, Int.emod_add_emod, home, Int.emod_eq_of_lt hp.1 hp.2]

theorem turn_neg_turn (k : Int) (hp : t.InRange p) : t.turn (-k) (t.turn k p) = p := by
  simpa only [Int.neg_neg] using turn_turn_neg (-k) hp

theorem away_rotate (k d : Int) (t : Tape) : (t.rotate k).away d = t.turn k (t.away d) := by
  apply Int64.toInt_inj.mp
  rw [toInt_away, ptr_rotate, size_rotate, toInt_turn, toInt_turn, toInt_away, Int.emod_add_emod,
    Int.emod_add_emod]
  congr 1
  omega

/-! ## Cells -/

/-- A cell is found again where it has come to. -/
theorem peek_rotate (k : Int) (hp : t.InRange p) : (t.rotate k).peek (t.turn k p) = t.peek p := by
  have there := inRange_turn k t p
  have back : (((t.turn k p).toInt.toNat : Int) - k) % t.size = p.toInt := by
    have origin := toInt_turn (-k) t (t.turn k p)
    rw [turn_neg_turn k hp] at origin
    rw [Int.toNat_of_nonneg there.1, origin, Int.sub_eq_add_neg]
  have inside : (t.turn k p).toInt.toNat < t.size := by
    have := there.1
    have := there.2
    omega
  simp only [peek, rotate, Array.getD_eq_getD_getElem?, Array.getElem?_ofFn, inside, back, dif_pos,
    Option.getD_some]

end Tape

/-- Carrying all cells `k` cells to the right. -/
def rotation (k : Int) : Symmetry where
  carry := Tape.rotate k
  place size p := Int64.ofInt ((p.toInt + k) % size)
  origin size p := Int64.ofInt ((p.toInt + -k) % size)
  sense := 1
  size_carry := Tape.size_rotate k
  ptr_carry := Tape.ptr_rotate k
  inRange_place _ := Tape.inRange_turn k _ _
  inRange_origin _ := Tape.inRange_turn (-k) _ _
  place_origin := Tape.turn_turn_neg k
  origin_place := Tape.turn_neg_turn k
  peek_carry := Tape.peek_rotate k
  place_away d _ := by
    rw [Int.one_mul]
    exact (Tape.away_rotate k d _).symm

/-! ## Instructions -/

/-- Turn the tape. -/
def State.rotate (k : Int) (s : State) : State :=
  s.onTape (·.rotate k)

namespace Instruction

variable {k : Int} {s : State}

/-- Executing the instruction before or after turning the tape is the same. -/
def Turns (k : Int) (i : Instruction) (s : State) : Prop :=
  i.exec (s.rotate k) = ((i.exec s).1.rotate k, (i.exec s).2)

/-- No instruction can tell where the tape starts. -/
theorem turns (k : Int) (i : Instruction) (on : s.tape.OnTape) : i.Turns k s := by
  suffices same : i.Carries (rotation k) i from same s on
  obtain ⟨op, n, m⟩ := i
  have straight : ∀ d : Int, (rotation k).sense * d = d := Int.one_mul
  cases op with
  | halt | add | zero | jez | jnz | write | read | unassigned => exact carries_of_undirected rfl
  | right => exact .of_onTape (exec_right n m) (exec_right n m) (Symmetry.shift_carry (straight _))
  | left => exact .of_onTape (exec_left n m) (exec_left n m) (Symmetry.shift_carry (straight _))
  | searchl =>
      exact .of_test (exec_searchl n m) (exec_searchl n m) (Symmetry.shift_carry (straight _))
  | searchr =>
      exact .of_test (exec_searchr n m) (exec_searchr n m) (Symmetry.shift_carry (straight _))
  | amovel =>
      exact .of_onTape (exec_amovel n m) (exec_amovel n m) (Symmetry.pour_away_carry (straight _))
  | amover =>
      exact .of_onTape (exec_amover n m) (exec_amover n m) (Symmetry.pour_away_carry (straight _))
  | zerol =>
      exact .of_onTape (exec_zerol n m) (exec_zerol n m) (Symmetry.sweep_carry (straight _) _)
  | zeror =>
      exact .of_onTape (exec_zeror n m) (exec_zeror n m) (Symmetry.sweep_carry (straight _) _)
  | mandel =>
      refine .of_test (exec_mandel n m) (exec_mandel n m) fun {t} on => ?_
      have poured := Symmetry.pour_carry (σ := rotation k) (Tape.inRange_away n.toNat t)
        (Tape.inRange_away (n.toNat + m.toNat) t)
      simp only [(rotation k).place_away _ on, straight] at poured
      rw [poured, Symmetry.shift_carry (straight _) ((Tape.onTape_pour ..).mpr on)]

end Instruction

/-! ## Runs -/

namespace Machine

variable {k : Int} {m : Machine}

/-- Turn the tape of a machine. -/
def rotate (k : Int) (m : Machine) : Machine :=
  { m with state := m.state.rotate k }

theorem carried_rotation (k : Int) : carried (rotation k) id = rotate k := by
  funext m
  simp only [carried, Array.map_id]
  rfl

theorem resume_rotate (limit : Nat) (on : m.tape.OnTape) :
    (m.rotate k).resume limit = (m.resume limit).map (Prod.map (rotate k) id) := by
  rw [← carried_rotation]
  exact resume_carried limit (fun i _ _ on => i.turns k on) on

/-- Runs commute with turning the tape: started on a turned tape, a machine ends exactly if it
    ends on the tape itself, after as many steps, at the same place, in the same way and with the
    same channels, and its tape is the other one turned. -/
theorem run_rotate (k : Int) (limit : Nat) (on : m.tape.OnTape) :
    (m.rotate k).run limit = (m.run limit).map (Prod.map (rotate k) id) :=
  resume_rotate limit (m := { m with count := 0 }) on

/-- Four cells with the pointer on the last, and instructions that reach over both ends. -/
def overEnds : Machine where
  program := #[.amover 6, .left 9, .mandel 3 5, .add 2, .searchr 1, .write, .zerol 2, .write, .halt]
  state := ⟨⟨#[0, 4, 7, 1], 3, by decide, by decide⟩, { output := some {} }⟩

theorem run_rotate_overEnds : ∃ last, overEnds.tape.OnTape ∧
    overEnds.run 40 = some (last, .ok ()) ∧
    (overEnds.rotate (-1)).run 40 = some (last.rotate (-1), .ok ()) ∧
    last.tape.cells = #[0, 2, 0, 0] ∧ last.tape.ptr = 1 ∧
    (last.rotate (-1)).tape.cells = #[2, 0, 0, 0] ∧ (last.rotate (-1)).tape.ptr = 0 := by
  have on : overEnds.tape.OnTape := by decide
  have ended : (overEnds.run 40).map (fun r => (r.1.tape, r.2)) =
      some (⟨#[0, 2, 0, 0], 1, by decide, by decide⟩, .ok ()) := by decide +kernel
  obtain ⟨⟨last, outcome⟩, run, same⟩ := Option.map_eq_some_iff.mp ended
  obtain ⟨tape, rfl⟩ := Prod.mk.inj same
  have turned : (last.rotate (-1)).tape = last.tape.rotate (-1) := rfl
  refine ⟨last, on, run, ?_, ?_⟩
  · rw [run_rotate (-1) 40 on, run]
    rfl
  · rw [turned, tape]
    decide

end Machine

end TapeLang
