/-! # The tape

A circular tape of byte cells with a pointer. Positions are 64-bit words and
moving a position takes the remainder by the number of cells, so a pointer
that starts on the tape stays on it. A pointer set from outside may lie off
the tape; touching the cell under it is then a fault.

Operations on cells are total. Whether they may be used is a question of its
own: `Tape.fault?` gives the fault of touching a position, if there is one.
-/

namespace TapeLang

/-- The largest number of cells that can be allocated, `2 ^ 48`. -/
def Tape.maxSize : Nat := 281474976710656

/-- A circular tape of byte cells and a pointer. -/
structure Tape where
  cells : Array UInt8
  ptr : Int64
  size_pos : 0 < cells.size
  size_le : cells.size ≤ Tape.maxSize
  deriving DecidableEq

/-- Touching the tape outside its cells. -/
inductive Fault where
  /-- A single cell was asked for at a position off the tape. -/
  | index (position : Int64) (size : Nat)
  /-- A range of cells ends off the tape. -/
  | rangeEnd (stop : Int64) (size : Nat)
  /-- A range of cells starts before the tape. -/
  | rangeStart (start : Int64)
  deriving Repr, DecidableEq

/-- Why a tape of some size cannot be made. -/
inductive SizeProblem where
  /-- The size is not positive. -/
  | notPositive (size : Int64)
  /-- The size is beyond what can be allocated. -/
  | tooLarge
  deriving Repr, DecidableEq

/-- The text of a fault. -/
def Fault.message : Fault → String
  | .index position size =>
    if position < 0 then s!"runtime error: index out of range [{position.toInt}]"
    else s!"runtime error: index out of range [{position.toInt}] with length {size}"
  | .rangeEnd stop size =>
    if stop < 0 then s!"runtime error: slice bounds out of range [:{stop.toInt}]"
    else s!"runtime error: slice bounds out of range [:{stop.toInt}] with capacity {size}"
  | .rangeStart start => s!"runtime error: slice bounds out of range [{start.toInt}:]"

/-- The text of a size problem. -/
def SizeProblem.message : SizeProblem → String
  | .notPositive size => s!"invalid tape size {size.toInt}"
  | .tooLarge => "runtime error: makeslice: len out of range"

namespace Tape

/-- Number of cells of a tape for which no size is asked. -/
def defaultSize : Nat := 30000

/-- A tape of `size` zero cells with the pointer on the first. -/
def blank (size : Nat) (pos : 0 < size) (le : size ≤ maxSize) : Tape where
  cells := Array.replicate size 0
  ptr := 0
  size_pos := by simpa using pos
  size_le := by simpa using le

/-- A blank tape of the default size. -/
def default : Tape :=
  blank defaultSize (by decide) (by decide)

/-- A blank tape of the given size, if there can be one. -/
def ofSize (size : Int64) : Except SizeProblem Tape :=
  if pos : 0 < size.toInt.toNat then
    if le : size.toInt.toNat ≤ maxSize then .ok (blank size.toInt.toNat pos le)
    else .error .tooLarge
  else .error (.notPositive size)

/-- Number of cells. -/
def size (t : Tape) : Nat :=
  t.cells.size

/-- Number of cells as a word. -/
def length (t : Tape) : Int64 :=
  Int64.ofNat t.size

/-- The position `n` cells to the right. -/
def rightOf (t : Tape) (position n : Int64) : Int64 :=
  (position + n) % t.length

/-- The position `n` cells to the left. -/
def leftOf (t : Tape) (position n : Int64) : Int64 :=
  (position - n % t.length + t.length) % t.length

/-- The cell at a position on the tape. Off the tape this is the first cell before it
    and zero behind it. -/
def peek (t : Tape) (position : Int64) : UInt8 :=
  t.cells.getD position.toInt.toNat 0

/-- Set the cell at a position on the tape. Off the tape this sets the first cell
    before it and nothing behind it. -/
def poke (t : Tape) (position : Int64) (value : UInt8) : Tape :=
  { t with
    cells := t.cells.setIfInBounds position.toInt.toNat value
    size_pos := by simpa using t.size_pos
    size_le := by simpa using t.size_le }

/-- The cell under the pointer. -/
def cell (t : Tape) : UInt8 :=
  t.peek t.ptr

/-- Set the cell under the pointer. -/
def setCell (value : UInt8) (t : Tape) : Tape :=
  t.poke t.ptr value

/-- Add to the cell under the pointer. -/
def bump (delta : UInt8) (t : Tape) : Tape :=
  t.setCell (t.cell + delta)

/-- Move the pointer right. -/
def right (n : Int64) (t : Tape) : Tape :=
  { t with ptr := t.rightOf t.ptr n }

/-- Move the pointer left. -/
def left (n : Int64) (t : Tape) : Tape :=
  { t with ptr := t.leftOf t.ptr n }

/-- Clear every cell. -/
def erase (t : Tape) : Tape :=
  { t with
    cells := Array.replicate t.cells.size 0
    size_pos := by simpa using t.size_pos
    size_le := by simpa using t.size_le }

/-- Clear cells one by one, moving right after each. -/
def sweepRight : Nat → Tape → Tape
  | 0, t => t
  | n + 1, t => sweepRight n ((t.setCell 0).right 1)

/-- Clear cells one by one, moving left after each. -/
def sweepLeft : Nat → Tape → Tape
  | 0, t => t
  | n + 1, t => sweepLeft n ((t.setCell 0).left 1)

/-- Clear `n` cells from the pointer on, leaving the pointer `n` cells to the
    right. A count that reaches around the tape clears all of it. -/
def zeroRight (n : Nat) (t : Tape) : Tape :=
  if t.size ≤ n then t.erase.right (Int64.ofNat n) else sweepRight n t

/-- Clear `n` cells from the pointer on, leaving the pointer `n` cells to the
    left. A count that reaches around the tape clears all of it. -/
def zeroLeft (n : Nat) (t : Tape) : Tape :=
  if t.size ≤ n then t.erase.left (Int64.ofNat n) else sweepLeft n t

/-- Add the cell at `source` to the cell at `target` and clear `source`. -/
def pour (source target : Int64) (t : Tape) : Tape :=
  (t.poke target (t.peek target + t.peek source)).poke source 0

/-- One round of diffusion: pour the cell at offset `x` to the cell `n`
    further right, then step left by `n`. -/
def diffuse (x n : Int64) (t : Tape) : Tape :=
  let source := t.rightOf t.ptr x
  (t.pour source (t.rightOf source n)).left n

/-- Whether a position lies on the tape. -/
def InRange (t : Tape) (position : Int64) : Prop :=
  0 ≤ position.toInt ∧ position.toInt < t.size

instance (t : Tape) (position : Int64) : Decidable (t.InRange position) :=
  inferInstanceAs (Decidable (_ ∧ _))

/-- The fault of touching a position, if there is one. -/
def fault? (t : Tape) (position : Int64) : Option Fault :=
  if t.InRange position then none else some (.index position t.size)

/-- The fault of taking the cell under the pointer as a range, if there is
    one. The end of the range is looked at first. -/
def rangeFault? (t : Tape) : Option Fault :=
  let stop := t.ptr + 1
  if stop < 0 ∨ t.length < stop then some (.rangeEnd stop t.size)
  else if t.ptr < 0 then some (.rangeStart t.ptr)
  else none

/-- The number of cells fits a word. -/
theorem toInt_length (t : Tape) : t.length.toInt = t.size := by
  have le := t.size_le
  have lt : t.cells.size < 2 ^ 63 := by
    simp only [maxSize] at le
    omega
  simp [length, size, Int64.toInt_ofNat_of_lt lt]

/-- Moving left is subtraction modulo the number of cells. -/
theorem toInt_leftOf {t : Tape} {position n : Int64} (on : t.InRange position)
    (nonneg : 0 ≤ n.toInt) :
    (t.leftOf position n).toInt = (position.toInt - n.toInt) % t.size := by
  obtain ⟨start, stop⟩ := on
  have sized := t.size_le
  have pos := t.size_pos
  have len := t.toInt_length
  simp only [maxSize, size] at *
  have part : (n % t.length).toInt = n.toInt % t.cells.size := by
    rw [Int64.toInt_mod, len, Int.tmod_eq_emod_of_nonneg nonneg]
  have part_nonneg : 0 ≤ n.toInt % t.cells.size := Int.emod_nonneg _ (by omega)
  have part_lt : n.toInt % t.cells.size < t.cells.size := Int.emod_lt_of_pos _ (by omega)
  have difference : (position - n % t.length).toInt =
      position.toInt - n.toInt % t.cells.size := by
    rw [Int64.toInt_sub, part, Int.bmod_eq_of_le] <;> omega
  have raised : (position - n % t.length + t.length).toInt =
      position.toInt - n.toInt % t.cells.size + t.cells.size := by
    rw [Int64.toInt_add, difference, len, Int.bmod_eq_of_le] <;> omega
  rw [leftOf, Int64.toInt_mod, raised, len, Int.tmod_eq_emod_of_nonneg (by omega)]
  simp [Int.sub_emod]

/-- A remainder by the number of cells is a position on the tape. -/
theorem inRange_of_toInt_eq {t : Tape} {position : Int64} {n : Int}
    (h : position.toInt = n % t.size) : t.InRange position := by
  have pos : (t.size : Int) ≠ 0 := by
    have := t.size_pos
    simp only [size]
    omega
  have lt := Int.emod_lt_of_pos n (by omega : (0 : Int) < t.size)
  exact ⟨by rw [h]; exact Int.emod_nonneg _ pos, by rw [h]; exact lt⟩

/-- Copy bytes to the tape from a position on, as far as they fit. -/
def load (start : Nat) : List UInt8 → Tape → Tape
  | [], t => t
  | b :: rest, t => load (start + 1) rest (t.poke (Int64.ofNat start) b)

end Tape

end TapeLang
