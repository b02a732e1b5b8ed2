import TapeLang.Proofs.TapeAlgebra

/-! # What loop bodies do to the tape

A body that takes from the current cell and gives to another leaves the result
of pouring the one into the other as it was. Clearing an area is clearing cells
one by one, also where the area reaches around the tape. One round of diffusion
is a move, a pour and a move back.
-/

namespace TapeLang.Tape

section Trading

variable {t : Tape} {p q : Int64}

/-- Take one from the current cell and give it to the cell at a position. -/
def trade (p : Int64) (t : Tape) : Tape :=
  (t.bump 255).addAt p 1

/-- On the current cell itself, taking and giving cancel. -/
theorem trade_ptr (on : t.OnTape) : t.trade t.ptr = t := by
  have cancel : (255 : UInt8) + 1 = 0 := rfl
  calc t.trade t.ptr = (t.bump 255).bump 1 := rfl
    _ = t.bump 0 := by rw [bump_bump on, cancel]
    _ = t := bump_zero on

@[simp] theorem ptr_trade (p : Int64) : (t.trade p).ptr = t.ptr := rfl

@[simp] theorem size_trade (p : Int64) : (t.trade p).size = t.size := by
  simp only [trade, size_addAt, size_bump]

theorem away_trade (p : Int64) (d : Int) : (t.trade p).away d = t.away d := by
  simp only [away, trade, ptr_addAt, ptr_bump, size_addAt, size_bump]

@[simp] theorem inRange_trade (p q : Int64) : (t.trade p).InRange q ↔ t.InRange q := by
  simp [trade]

@[simp] theorem onTape_trade (p : Int64) : (t.trade p).OnTape ↔ t.OnTape := by
  simp [trade]

theorem peek_trade (on : t.OnTape) (hp : t.InRange p) (hq : t.InRange q) :
    (t.trade p).peek q =
      if p = q then (if t.ptr = p then t.cell + 255 else t.peek p) + 1
      else if t.ptr = q then t.cell + 255 else t.peek q := by
  rw [trade, peek_addAt (by simpa using hp) (by simpa using hq), peek_bump on hp, peek_bump on hq]

theorem cell_trade (on : t.OnTape) (hp : t.InRange p) (apart : p ≠ t.ptr) :
    (t.trade p).cell = t.cell + 255 := by
  have taken := peek_trade on hp on
  rwa [if_neg apart, if_pos rfl] at taken

/-- Giving and taking may come in either order. -/
theorem bump_addAt (on : t.OnTape) (hp : t.InRange p) :
    (t.addAt p 1).bump 255 = t.trade p := by
  apply eq_of_peek
  · simp [trade]
  · rfl
  intro q hq
  have hq : t.InRange q := by simpa using hq
  rw [peek_bump (by simpa using on) (by simpa using hq), peek_trade on hp hq, peek_addAt hp hq, cell,
    ptr_addAt, peek_addAt hp on]
  simp only [cell]
  grind

theorem pour_of_cell_eq_zero (on : t.OnTape) (hp : t.InRange p) (zero : t.cell = 0) :
    t.pour t.ptr p = t := by
  have read : t.peek t.ptr = 0 := zero
  rw [pour, read, UInt8.add_zero, poke_peek hp, ← read, poke_peek on]

theorem peek_pour (on : t.OnTape) (hp : t.InRange p) (hq : t.InRange q) :
    (t.pour t.ptr p).peek q =
      if t.ptr = q then 0 else if p = q then t.peek p + t.cell else t.peek q := by
  have on' : (t.poke p (t.peek p + t.peek t.ptr)).InRange t.ptr := (inRange_poke ..).mpr on
  rw [pour, peek_poke on' (by simpa using hq), peek_poke hp hq]
  rfl

/-- Trading before pouring changes nothing. -/
theorem pour_trade (on : t.OnTape) (hp : t.InRange p) :
    (t.trade p).pour t.ptr p = t.pour t.ptr p := by
  by_cases apart : p = t.ptr
  · subst apart
    rw [trade_ptr on]
  apply eq_of_peek
  · simp [trade]
  · rfl
  intro q hq
  have hq : t.InRange q := by simpa using hq
  have poured := peek_pour (t := t.trade p) (by simpa using on) (by simpa using hp) (by simpa using hq)
  rw [cell_trade on hp apart, peek_trade on hp hp, peek_trade on hp hq] at poured
  rw [show (t.trade p).pour t.ptr p = (t.trade p).pour (t.trade p).ptr p from rfl, poured,
    peek_pour on hp hq]
  show (if t.ptr = q then _ else _) = _
  grind

theorem pour_away_trade (d : Int) (on : t.OnTape) :
    (t.trade (t.away d)).pour (t.trade (t.away d)).ptr ((t.trade (t.away d)).away d) =
      t.pour t.ptr (t.away d) := by
  rw [away_trade, ptr_trade, pour_trade on (inRange_away d t)]

theorem away_bump (d : Int) (v : UInt8) : (t.bump v).away d = t.away d := by
  simp only [away, ptr_bump, size_bump]

/-- A loop body that takes first. -/
theorem take_then_give (on : t.OnTape) (d : Int) :
    (((t.bump 255).shift d).bump 1).shift (-d) = t.trade (t.away d) := by
  rw [bump_away (by simpa using on), away_bump, trade]

/-- A loop body that gives first. -/
theorem give_then_take (on : t.OnTape) (d : Int) :
    (((t.shift d).bump 1).shift (-d)).bump 255 = t.trade (t.away d) := by
  rw [bump_away on, bump_addAt on (inRange_away d t)]

end Trading

section Sweeping

variable {t : Tape} {d : Int} {n : Nat}

/-- Clear cells one by one, moving by `d` after each. -/
def sweep (d : Int) : Nat → Tape → Tape
  | 0, t => t
  | n + 1, t => sweep d n ((t.setCell 0).shift d)

theorem sweepRight_eq_sweep (n : Nat) : ∀ {t : Tape}, t.OnTape → t.sweepRight n = t.sweep 1 n := by
  induction n with
  | zero => exact fun _ => rfl
  | succ n ih =>
      intro t on
      have step : (t.setCell 0).right 1 = (t.setCell 0).shift 1 :=
        right_eq_shift (n := 1) (by simpa using on) (by decide)
      rw [sweepRight, step, ih (onTape_shift 1 _), sweep]

theorem sweepLeft_eq_sweep (n : Nat) : ∀ {t : Tape}, t.OnTape → t.sweepLeft n = t.sweep (-1) n := by
  induction n with
  | zero => exact fun _ => rfl
  | succ n ih =>
      intro t on
      have step : (t.setCell 0).left 1 = (t.setCell 0).shift (-1) :=
        left_eq_shift (n := 1) (by simpa using on) (by decide)
      rw [sweepLeft, step, ih (onTape_shift (-1) _), sweep]

theorem sweep_add (d : Int) (n m : Nat) (t : Tape) : t.sweep d (n + m) = (t.sweep d n).sweep d m := by
  induction n generalizing t with
  | zero => rw [Nat.zero_add, sweep]
  | succ n ih => rw [Nat.succ_add, sweep, sweep, ih]

theorem size_sweep (d : Int) (n : Nat) (t : Tape) : (t.sweep d n).size = t.size := by
  induction n generalizing t with
  | zero => rfl
  | succ n ih => rw [sweep, ih, size_shift, size_setCell]

theorem onTape_sweep (n : Nat) (on : t.OnTape) : (t.sweep d n).OnTape := by
  induction n generalizing t with
  | zero => exact on
  | succ n ih => exact ih (onTape_shift d _)

theorem ptr_sweep (n : Nat) (on : t.OnTape) : (t.sweep d n).ptr = t.away (d * n) := by
  induction n generalizing t with
  | zero => rw [sweep, Int.natCast_zero, Int.mul_zero, away_zero on]
  | succ n ih =>
      have moved : (t.setCell 0).away (d + d * n) = t.away (d * ((n + 1 : Nat) : Int)) := by
        have total : d + d * n = d * ((n + 1 : Nat) : Int) := by
          rw [Int.natCast_succ, Int.mul_add, Int.mul_one, Int.add_comm]
        simp only [away, ptr_setCell, size_setCell, total]
      rw [sweep, ih (onTape_shift d _), away_shift, moved]

/-- A sweep clears the cells it passes and no others. -/
theorem peek_sweep (n : Nat) (on : t.OnTape) {q : Int64} (hq : t.InRange q) :
    (t.sweep d n).peek q = 0 ∧ (∃ i < n, q = t.away (d * i)) ∨
      (t.sweep d n).peek q = t.peek q ∧ ∀ i < n, q ≠ t.away (d * i) := by
  induction n generalizing t with
  | zero => exact .inr ⟨rfl, fun i hi => absurd hi (Nat.not_lt_zero i)⟩
  | succ n ih =>
      have start : t.away (d * (0 : Nat)) = t.ptr := by
        rw [Int.natCast_zero, Int.mul_zero, away_zero on]
      have later : ∀ i : Nat,
          ((t.setCell 0).shift d).away (d * i) = t.away (d * ((i + 1 : Nat) : Int)) := by
        intro i
        have total : d + d * i = d * ((i + 1 : Nat) : Int) := by
          rw [Int.natCast_succ, Int.mul_add, Int.mul_one, Int.add_comm]
        rw [away_shift, total]
        simp only [away, ptr_setCell, size_setCell]
      rcases ih (t := (t.setCell 0).shift d) (onTape_shift d _) (by simpa using hq) with
        ⟨cleared, i, hi, here⟩ | ⟨kept, apart⟩
      · exact .inl ⟨cleared, i + 1, by omega, by rw [here, later]⟩
      · rw [peek_shift, peek_setCell on hq] at kept
        by_cases first : t.ptr = q
        · rw [if_pos first] at kept
          exact .inl ⟨kept, 0, by omega, by rw [start, first]⟩
        · rw [if_neg first] at kept
          refine .inr ⟨kept, ?_⟩
          intro i hi
          cases i with
          | zero => exact fun h => first (by rw [h, start])
          | succ i => exact fun h => apart i (by omega) (by rw [h, later])

/-- Unit steps in either direction pass every cell within one turn. -/
theorem exists_away_eq (unit : d * d = 1) {q : Int64} (hq : t.InRange q) (turn : t.size ≤ n) :
    ∃ i < n, q = t.away (d * i) := by
  have pos := t.size_ne_zero
  have low := Int.emod_nonneg (d * (q.toInt - t.ptr.toInt)) pos
  have high := Int.emod_lt_of_pos (d * (q.toInt - t.ptr.toInt)) (by omega : (0 : Int) < t.size)
  refine ⟨(d * (q.toInt - t.ptr.toInt) % t.size).toNat, by omega, ?_⟩
  apply Int64.toInt_inj.mp
  have back : d * (d * (q.toInt - t.ptr.toInt)) = q.toInt - t.ptr.toInt := by
    rw [← Int.mul_assoc, unit, Int.one_mul]
  rw [toInt_away, Int.toNat_of_nonneg low, Int.add_emod, Int.mul_emod, Int.emod_emod, ← Int.mul_emod,
    back, ← Int.add_emod]
  have whole : t.ptr.toInt + (q.toInt - t.ptr.toInt) = q.toInt := by omega
  rw [whole, Int.emod_eq_of_lt hq.1 hq.2]

theorem onTape_erase : t.erase.OnTape ↔ t.OnTape := by
  simp [erase, OnTape, InRange, size]

theorem size_erase : t.erase.size = t.size := by
  simp [erase, size]

/-- A sweep around the whole tape erases it. -/
theorem erase_shift_eq_sweep (on : t.OnTape) (unit : d * d = 1) (turn : t.size ≤ n) :
    t.erase.shift (d * n) = t.sweep d n := by
  apply eq_of_peek
  · rw [size_shift, size_erase, size_sweep]
  · rw [ptr_sweep n on]
    simp only [shift, away, size_erase]
    rfl
  intro q hq
  have hq : t.InRange q := by simpa only [InRange, size_shift, size_erase] using hq
  have blank : t.erase.peek q = 0 := by
    simp only [erase, peek, Array.getD_eq_getD_getElem?, Array.getElem?_replicate]
    split <;> rfl
  rw [peek_shift, blank]
  rcases peek_sweep n on hq with ⟨cleared, _⟩ | ⟨_, apart⟩
  · exact cleared.symm
  · obtain ⟨i, hi, here⟩ := exists_away_eq unit hq turn
    exact absurd here (apart i hi)

/-- Around the tape or not, clearing to the right is a sweep. -/
theorem zeroRight_eq_sweep_of_reach (on : t.OnTape) (fits : t.size + n ≤ reach) :
    t.zeroRight n = t.sweep 1 n := by
  unfold zeroRight
  split
  · next turn =>
      have moved := rightOf_eq_away_of_reach (onTape_erase.mpr on) (size_erase.symm ▸ fits)
      rw [right, moved, ← erase_shift_eq_sweep on rfl turn, Int.one_mul, shift]
  · exact sweepRight_eq_sweep n on

/-- Around the tape or not, clearing to the left is a sweep. -/
theorem zeroLeft_eq_sweep_of_reach (on : t.OnTape) (fits : t.size + n ≤ reach) :
    t.zeroLeft n = t.sweep (-1) n := by
  unfold zeroLeft
  split
  · next turn =>
      have moved := leftOf_eq_away_of_reach (onTape_erase.mpr on) (size_erase.symm ▸ fits)
      rw [left, moved, ← erase_shift_eq_sweep on rfl turn, Int.neg_one_mul, shift]
  · exact sweepLeft_eq_sweep n on

theorem zeroRight_eq_sweep (on : t.OnTape) (le : n ≤ maxSize) : t.zeroRight n = t.sweep 1 n :=
  zeroRight_eq_sweep_of_reach on (size_add_le_reach t le)

theorem zeroLeft_eq_sweep (on : t.OnTape) (le : n ≤ maxSize) : t.zeroLeft n = t.sweep (-1) n :=
  zeroLeft_eq_sweep_of_reach on (size_add_le_reach t le)

end Sweeping

section Diffusing

variable {t : Tape} {x n q : Nat}

theorem rightOf_away (t : Tape) (x : Nat) (hn : n ≤ maxSize) :
    t.rightOf (t.away x) (Int64.ofNat n) = t.away (x + n) :=
  (rightOf_eq_away (onTape_shift x t) hn).trans (away_shift x n t)

theorem diffuse_eq (on : t.OnTape) (hx : x ≤ maxSize) (hn : n ≤ maxSize) :
    t.diffuse (Int64.ofNat x) (Int64.ofNat n) =
      (t.pour (t.away x) (t.away (x + n))).shift (-n) := by
  rw [diffuse, rightOf_eq_away on hx, rightOf_away t x hn, left_eq_shift (by simpa using on) hn]

/-- Going out, pouring and coming back beyond the start is a round of
    diffusion. -/
theorem pour_away (x n q : Nat) (sum : x + n = q) (t : Tape) :
    ((t.shift x).pour (t.shift x).ptr ((t.shift x).away n)).shift (-q) =
      (t.pour (t.away x) (t.away (x + n))).shift (-n) := by
  have back : (x : Int) + -q = -n := by omega
  rw [pour_shift, shift_shift, back, away_shift]
  rfl

end Diffusing

end TapeLang.Tape
