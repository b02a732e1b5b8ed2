import TapeLang.Tape

/-! # The algebra of the tape

On a tape whose pointer lies on it, moves are addition modulo the number of
cells. `Tape.shift` is the move by a signed distance that both directions are
cases of. Cells are compared position by position, so that two tapes are equal
once their sizes, pointers and cells in range are.
-/

namespace TapeLang.Tape

/-- The pointer lies on the tape. -/
def OnTape (t : Tape) : Prop :=
  t.InRange t.ptr

instance (t : Tape) : Decidable t.OnTape :=
  inferInstanceAs (Decidable (t.InRange t.ptr))

/-- The position `d` cells to the right of the pointer. -/
def away (d : Int) (t : Tape) : Int64 :=
  Int64.ofInt ((t.ptr.toInt + d) % t.size)

/-- Move the pointer by a signed distance. -/
def shift (d : Int) (t : Tape) : Tape :=
  { t with ptr := t.away d }

/-- The largest distance that a word can say. Adding it to a position is safe if the sum with the
    size of the tape is no more than this. -/
def reach : Nat := 9223372036854775807

/-- Add to the cell at a position. -/
def addAt (position : Int64) (delta : UInt8) (t : Tape) : Tape :=
  t.poke position (t.peek position + delta)

section Sizes

variable (t : Tape) (p q : Int64) (v : UInt8) (d : Int)

theorem size_ne_zero : (t.size : Int) ≠ 0 := by
  have := t.size_pos
  simp only [size]
  omega

@[simp] theorem size_poke : (t.poke p v).size = t.size := by simp [poke, size]

@[simp] theorem ptr_poke : (t.poke p v).ptr = t.ptr := rfl

@[simp] theorem size_shift : (t.shift d).size = t.size := rfl

@[simp] theorem peek_shift : (t.shift d).peek p = t.peek p := rfl

theorem poke_shift : (t.shift d).poke p v = (t.poke p v).shift d := by
  simp [shift, poke, away, size]

theorem pour_shift : (t.shift d).pour p q = (t.pour p q).shift d := by
  simp only [pour, peek_shift, poke_shift]

@[simp] theorem inRange_poke : (t.poke p v).InRange q ↔ t.InRange q := by
  simp only [InRange, size_poke]

@[simp] theorem inRange_shift : (t.shift d).InRange q ↔ t.InRange q := Iff.rfl

@[simp] theorem onTape_poke : (t.poke p v).OnTape ↔ t.OnTape := by
  simp only [OnTape, inRange_poke, ptr_poke]

@[simp] theorem size_addAt : (t.addAt p v).size = t.size := size_poke t _ _

@[simp] theorem ptr_addAt : (t.addAt p v).ptr = t.ptr := rfl

@[simp] theorem inRange_addAt : (t.addAt p v).InRange q ↔ t.InRange q := inRange_poke t _ _ _

@[simp] theorem onTape_addAt : (t.addAt p v).OnTape ↔ t.OnTape := onTape_poke t _ _

@[simp] theorem size_setCell : (t.setCell v).size = t.size := size_poke t _ v

@[simp] theorem ptr_setCell : (t.setCell v).ptr = t.ptr := rfl

@[simp] theorem inRange_setCell : (t.setCell v).InRange q ↔ t.InRange q := inRange_poke t _ _ _

@[simp] theorem onTape_setCell : (t.setCell v).OnTape ↔ t.OnTape := onTape_poke t _ v

@[simp] theorem size_bump : (t.bump v).size = t.size := size_poke t _ _

@[simp] theorem ptr_bump : (t.bump v).ptr = t.ptr := rfl

@[simp] theorem inRange_bump : (t.bump v).InRange q ↔ t.InRange q := inRange_poke t _ _ _

@[simp] theorem onTape_bump : (t.bump v).OnTape ↔ t.OnTape := onTape_poke t _ _

@[simp] theorem size_pour : (t.pour p q).size = t.size := by simp [pour]

@[simp] theorem ptr_pour : (t.pour p q).ptr = t.ptr := rfl

@[simp] theorem inRange_pour (r : Int64) : (t.pour p q).InRange r ↔ t.InRange r := by simp [pour]

@[simp] theorem onTape_pour : (t.pour p q).OnTape ↔ t.OnTape := by simp [pour]

end Sizes

section Positions

variable {t : Tape} {n : Nat}

theorem toInt_away (d : Int) (t : Tape) : (t.away d).toInt = (t.ptr.toInt + d) % t.size := by
  have pos := t.size_ne_zero
  have low := Int.emod_nonneg (t.ptr.toInt + d) pos
  have high := Int.emod_lt_of_pos (t.ptr.toInt + d) (by omega : (0 : Int) < t.size)
  have sized : t.size ≤ 2 ^ 48 := t.size_le
  exact Int64.toInt_ofInt_of_le (by omega) (by omega)

theorem inRange_away (d : Int) (t : Tape) : t.InRange (t.away d) :=
  inRange_of_toInt_eq (toInt_away d t)

theorem onTape_shift (d : Int) (t : Tape) : (t.shift d).OnTape :=
  inRange_away d t

theorem away_zero (on : t.OnTape) : t.away 0 = t.ptr := by
  apply Int64.toInt_inj.mp
  rw [toInt_away, Int.add_zero, Int.emod_eq_of_lt on.1 on.2]

theorem away_shift (a b : Int) (t : Tape) : (t.shift a).away b = t.away (a + b) := by
  apply Int64.toInt_inj.mp
  rw [toInt_away, toInt_away]
  change ((t.away a).toInt + b) % t.size = _
  rw [toInt_away, Int.emod_add_emod, Int.add_assoc]

@[simp] theorem shift_shift (a b : Int) (t : Tape) : (t.shift a).shift b = t.shift (a + b) := by
  simp only [shift]
  congr 1
  exact away_shift a b t

theorem shift_zero (on : t.OnTape) : t.shift 0 = t := by
  simp only [shift, away_zero on]

/-- Whole turns around the tape are no move. -/
theorem away_eq_ptr_iff (on : t.OnTape) (d : Int) : t.away d = t.ptr ↔ (t.size : Int) ∣ d := by
  have stay : t.ptr.toInt % t.size = t.ptr.toInt := Int.emod_eq_of_lt on.1 on.2
  rw [← Int64.toInt_inj, toInt_away]
  constructor
  · intro same
    have gap : (t.ptr.toInt + d - t.ptr.toInt) % t.size = 0 := by
      rw [Int.sub_emod, same, stay, Int.sub_self, Int.zero_emod]
    have cancel : t.ptr.toInt + d - t.ptr.toInt = d := by omega
    exact Int.dvd_of_emod_eq_zero (cancel ▸ gap)
  · rintro ⟨turns, rfl⟩
    rw [Int.add_mul_emod_self_left, stay]

theorem toInt_ofNat (le : n ≤ maxSize) : (Int64.ofNat n).toInt = n := by
  simp only [maxSize] at le
  exact Int64.toInt_ofNat_of_lt (by omega)

theorem size_add_le_reach (t : Tape) (le : n ≤ maxSize) : t.size + n ≤ reach := by
  have sized : t.size ≤ maxSize := t.size_le
  simp only [maxSize, reach] at *
  omega

theorem rightOf_eq_away_of_reach (on : t.OnTape) (fits : t.size + n ≤ reach) :
    t.rightOf t.ptr (Int64.ofNat n) = t.away n := by
  obtain ⟨low, high⟩ := on
  simp only [reach] at fits
  have known : (Int64.ofNat n).toInt = n := Int64.toInt_ofNat_of_lt (by omega)
  have sum : (t.ptr + Int64.ofNat n).toInt = t.ptr.toInt + n := by
    rw [Int64.toInt_add, known, Int.bmod_eq_of_le] <;> omega
  apply Int64.toInt_inj.mp
  rw [rightOf, Int64.toInt_mod, sum, toInt_length, Int.tmod_eq_emod_of_nonneg (by omega), toInt_away]

theorem leftOf_eq_away_of_reach (on : t.OnTape) (fits : t.size + n ≤ reach) :
    t.leftOf t.ptr (Int64.ofNat n) = t.away (-n) := by
  simp only [reach] at fits
  have known : (Int64.ofNat n).toInt = n := Int64.toInt_ofNat_of_lt (by omega)
  apply Int64.toInt_inj.mp
  rw [toInt_leftOf on (by omega), known, toInt_away, Int.sub_eq_add_neg]

theorem rightOf_eq_away (on : t.OnTape) (le : n ≤ maxSize) :
    t.rightOf t.ptr (Int64.ofNat n) = t.away n :=
  rightOf_eq_away_of_reach on (size_add_le_reach t le)

theorem leftOf_eq_away (on : t.OnTape) (le : n ≤ maxSize) :
    t.leftOf t.ptr (Int64.ofNat n) = t.away (-n) :=
  leftOf_eq_away_of_reach on (size_add_le_reach t le)

theorem right_eq_shift (on : t.OnTape) (le : n ≤ maxSize) :
    t.right (Int64.ofNat n) = t.shift n := by
  simp only [right, shift, rightOf_eq_away on le]

theorem left_eq_shift (on : t.OnTape) (le : n ≤ maxSize) :
    t.left (Int64.ofNat n) = t.shift (-n) := by
  simp only [left, shift, leftOf_eq_away on le]

end Positions

section Cells

variable {t u : Tape} {p q : Int64} {v w : UInt8}

theorem toNat_inj_of_inRange (hp : t.InRange p) (hq : t.InRange q)
    (same : p.toInt.toNat = q.toInt.toNat) : p = q := by
  apply Int64.toInt_inj.mp
  have := hp.1
  have := hq.1
  omega

theorem peek_poke (hp : t.InRange p) (hq : t.InRange q) :
    (t.poke p v).peek q = if p = q then v else t.peek q := by
  have inside : p.toInt.toNat < t.cells.size := by
    have := hp.1
    have := hp.2
    simp only [size] at *
    omega
  by_cases same : p = q
  · subst same
    simp only [peek, poke, Array.getD_eq_getD_getElem?, Array.getD_getElem?_setIfInBounds, inside,
      if_true]
  · have apart : p.toInt.toNat ≠ q.toInt.toNat := fun h => same (toNat_inj_of_inRange hp hq h)
    simp only [peek, poke, Array.getD_eq_getD_getElem?, Array.getElem?_setIfInBounds_ne apart,
      if_neg same]

/-- Tapes with the same cells in range are the same. -/
theorem eq_of_peek (size_eq : t.size = u.size) (ptr_eq : t.ptr = u.ptr)
    (cells_eq : ∀ q, t.InRange q → t.peek q = u.peek q) : t = u := by
  obtain ⟨cells, ptr, pos, le⟩ := t
  obtain ⟨cells', ptr', pos', le'⟩ := u
  simp only [size] at size_eq
  simp only at ptr_eq
  have same : cells = cells' := by
    apply Array.ext size_eq
    intro k hk hk'
    have known : (Int64.ofNat k).toInt = k := toInt_ofNat (by omega)
    have here := cells_eq (Int64.ofNat k) ⟨by omega, by simp only [size]; omega⟩
    simpa [peek, known, hk, hk'] using here
  subst same ptr_eq
  rfl

theorem poke_poke : (t.poke p v).poke p w = t.poke p w := by
  simp [poke]

theorem poke_peek (hp : t.InRange p) : t.poke p (t.peek p) = t := by
  apply eq_of_peek (size_poke t p _) rfl
  intro q hq
  rw [inRange_poke] at hq
  rw [peek_poke hp hq]
  split
  · next same => rw [same]
  · rfl

theorem peek_addAt (hp : t.InRange p) (hq : t.InRange q) :
    (t.addAt p v).peek q = if p = q then t.peek p + v else t.peek q :=
  peek_poke hp hq

theorem peek_setCell (on : t.OnTape) (hq : t.InRange q) :
    (t.setCell v).peek q = if t.ptr = q then v else t.peek q :=
  peek_poke on hq

theorem peek_bump (on : t.OnTape) (hq : t.InRange q) :
    (t.bump v).peek q = if t.ptr = q then t.cell + v else t.peek q :=
  peek_poke on hq

theorem cell_setCell (on : t.OnTape) : (t.setCell v).cell = v := by
  simp only [cell, setCell, ptr_poke, peek_poke on on, if_true]

theorem cell_bump (on : t.OnTape) : (t.bump v).cell = t.cell + v :=
  cell_setCell on

theorem setCell_cell (on : t.OnTape) : t.setCell t.cell = t :=
  poke_peek on

theorem setCell_setCell : (t.setCell v).setCell w = t.setCell w :=
  poke_poke

theorem setCell_bump : (t.bump v).setCell w = t.setCell w :=
  poke_poke

theorem bump_bump (on : t.OnTape) : (t.bump v).bump w = t.bump (v + w) := by
  rw [bump, cell_bump on, setCell_bump, bump, UInt8.add_assoc]

theorem bump_zero (on : t.OnTape) : t.bump 0 = t := by
  rw [bump, UInt8.add_zero, setCell_cell on]

/-- Going somewhere, adding and coming back adds at a distance. -/
theorem bump_away (on : t.OnTape) (d : Int) :
    ((t.shift d).bump v).shift (-d) = t.addAt (t.away d) v := by
  have back : (t.shift d).bump v = (t.addAt (t.away d) v).shift d := by
    simp only [bump, setCell, addAt, cell, poke_shift, peek_shift]
    rfl
  rw [back, shift_shift, Int.add_right_neg, shift_zero]
  simpa only [addAt, onTape_poke] using on

end Cells

end TapeLang.Tape
