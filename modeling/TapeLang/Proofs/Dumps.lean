import TapeLang.Proofs.Listings

/-! # Reading dumps

A dump says where a machine stands and what its first cells hold, and can be read back:
its fields are parted by a control byte, its cells by blanks, and neither occurs in a
numeral.
-/

namespace TapeLang

/-! ## Numerals -/

namespace Decimal

variable {n : Nat}

/-- The number that digits stand for. -/
def toNat (digits : Bytes) : Nat :=
  digits.foldl (fun n b => 10 * n + (b.toNat - 48)) 0

/-- The number that digits stand for, behind a minus sign or not. -/
def toInt : Bytes → Int
  | 45 :: digits => -toNat digits
  | digits => toNat digits

theorem toNat_digit (n : Nat) : (digit n).toNat = 48 + n % 10 := by
  have small := Nat.mod_lt n (by decide : 0 < 10)
  simp only [digit, Nat.toUInt8_eq, UInt8.toNat_ofNat']
  omega

theorem toNat_ofNat (n : Nat) : toNat (ofNat n) = n := by
  fun_induction ofNat n with
  | case1 n small =>
      simp only [toNat, List.foldl_cons, List.foldl_nil, toNat_digit]
      omega
  | case2 n large ih =>
      simp only [toNat] at ih
      simp only [toNat, List.foldl_append, List.foldl_cons, List.foldl_nil, ih, toNat_digit]
      omega

theorem minus_notMem_ofNat (n : Nat) : 45 ∉ ofNat n := by
  have notDigit : ∀ k, 45 ≠ digit k := by
    intro k same
    have value := toNat_digit k
    rw [← same] at value
    simp at value
    omega
  fun_induction ofNat n with
  | case1 n => simpa using notDigit n
  | case2 n _ ih => simpa using ⟨ih, notDigit n⟩

theorem toInt_ofInt (n : Int) : toInt (ofInt n) = n := by
  cases n with
  | ofNat n =>
      have plain : toInt (ofNat n) = toNat (ofNat n) := by
        rw [toInt]
        intro digits same
        exact minus_notMem_ofNat n (by rw [same]; simp)
      rw [ofInt, plain, toNat_ofNat]
      rfl
  | negSucc n =>
      rw [ofInt, toInt, toNat_ofNat]
      rfl

theorem notMem_ofInt {b : UInt8} (other : ¬ IsMark b) (n : Int) : b ∉ ofInt n :=
  fun member => other (isMark_of_mem_ofInt b member)

end Decimal

/-! ## Fields -/

/-- What a dump says. -/
structure Dumped where
  ptr : Int64
  pc : Address
  cells : List UInt8
  deriving Repr, DecidableEq

namespace Dumped

/-- Cells from their values, parted by blanks. -/
def readCells (text : Bytes) : List UInt8 :=
  if text = [] then [] else (text.splitOn 32).map fun n => (Decimal.toNat n).toUInt8

/-- What a text says as a dump. -/
def read (text : Bytes) : Option Dumped :=
  match text.splitOn 0x1D with
  | [0x1C :: ptr, pc, cells] =>
    some ⟨Int64.ofInt (Decimal.toInt ptr), ⟨Decimal.toInt pc⟩, readCells cells⟩
  | _ => none

theorem readCells_cellPieces (cells : List UInt8) :
    readCells (Machine.cellPieces cells).flatten = cells := by
  cases cells with
  | nil => rfl
  | cons c rest =>
      let numerals := (c :: rest).map fun c => Decimal.ofNat c.toNat
      have parted : (Machine.cellPieces (c :: rest)).flatten = [32].intercalate numerals := rfl
      have front : ∃ more, [32].intercalate numerals = Decimal.ofNat c.toNat ++ more := by
        cases rest <;> exact ⟨_, rfl⟩
      have nonempty : [32].intercalate numerals ≠ [] := by
        obtain ⟨more, front⟩ := front
        rw [front]
        exact List.append_ne_nil_of_left_ne_nil (Decimal.ofNat_ne_nil _) more
      have blank : ∀ n ∈ numerals, 32 ∉ n := by
        rw [List.forall_mem_map]
        intro c _
        exact Decimal.notMem_ofInt (by simp [Decimal.IsMark]) c.toNat
      have value : ∀ c : UInt8, (Decimal.toNat (Decimal.ofNat c.toNat)).toUInt8 = c := by
        intro c
        rw [Decimal.toNat_ofNat]
        exact UInt8.ofNat_toNat
      rw [parted, readCells, if_neg nonempty,
        List.splitOn_intercalate 32 blank (by simp [numerals]),
        List.map_map]
      exact List.map_id'' value _

end Dumped

namespace Machine

variable {count : Int64} {m : Machine}

theorem dumpCount_eq (count : Int64) (m : Machine) : m.dumpCount count =
    if 0 ≤ count.toInt ∧ count.toInt ≤ m.tape.size then count.toInt.toNat else m.tape.size := by
  have below : count < 0 ↔ count.toInt < 0 := Int64.lt_iff_toInt_lt
  have above : m.tape.length < count ↔ (m.tape.size : Int) < count.toInt := by
    rw [Int64.lt_iff_toInt_lt, Tape.toInt_length]
  simp only [dumpCount, below, above]
  split <;> split <;> first | rfl | omega

theorem notMem_cellPieces {b : UInt8} (notMark : ¬ Decimal.IsMark b) (notBlank : b ≠ 32)
    (cells : List UInt8) : b ∉ (cellPieces cells).flatten := by
  induction cells with
  | nil => simp [cellPieces]
  | cons c rest ih =>
      have first : b ∉ Decimal.ofNat c.toNat := Decimal.notMem_ofInt notMark c.toNat
      cases rest with
      | nil => simpa [cellPieces] using first
      | cons => simpa [cellPieces, first, notBlank] using ih

/-- The fields of a dump can be told apart. -/
theorem splitOn_dumpPieces (count : Int64) (m : Machine) :
    (m.dumpPieces count).flatten.splitOn 0x1D =
      [0x1C :: Decimal.ofInt m.tape.ptr.toInt, Decimal.ofInt m.pc.toInt,
        (cellPieces (m.tape.cells.toList.take (m.dumpCount count))).flatten] := by
  let fields := [0x1C :: Decimal.ofInt m.tape.ptr.toInt, Decimal.ofInt m.pc.toInt,
    (cellPieces (m.tape.cells.toList.take (m.dumpCount count))).flatten]
  have parted : (m.dumpPieces count).flatten = [0x1D].intercalate fields := by
    simp [dumpPieces, fields, List.intercalate]
  have notMark : ¬ Decimal.IsMark 0x1D := by simp [Decimal.IsMark]
  have within : ∀ field ∈ fields, 0x1D ∉ field := by
    simp [fields, Decimal.notMem_ofInt notMark, notMem_cellPieces notMark]
  rw [parted, List.splitOn_intercalate 0x1D within (by simp [fields])]

theorem read_dumpPieces (count : Int64) (m : Machine) :
    Dumped.read (m.dumpPieces count).flatten =
      some ⟨m.tape.ptr, m.pc, m.tape.cells.toList.take (m.dumpCount count)⟩ := by
  simp only [Dumped.read, splitOn_dumpPieces, Decimal.toInt_ofInt, Int64.ofInt_toInt,
    Dumped.readCells_cellPieces]

/-- A dump can be read back: whatever writer it was written on, as long as that never failed, one
    function gives the pointer, the program counter and the first cells from the text. There are as
    many cells as were asked for, or all of them if the tape does not have that many. -/
theorem dump_read_back (count : Int64) (m : Machine) (w : Writer)
    (accepts : ∀ n, w.onWrite n = .accept) :
    (m.dump count w).failure = none ∧ ∃ text,
      (m.dump count w).writer.received.toList = w.received.toList ++ text ∧
      Dumped.read text = some ⟨m.tape.ptr, m.pc, m.tape.cells.toList.take
        (if 0 ≤ count.toInt ∧ count.toInt ≤ m.tape.size then count.toInt.toNat
          else m.tape.size)⟩ := by
  obtain ⟨fine, text⟩ := (Printer.printed_pieces (m.dumpPieces count) w).accepted accepts
  refine ⟨fine, _, text, ?_⟩
  rw [read_dumpPieces, dumpCount_eq]

/-- A machine that was put outside its program and its tape. -/
def astray : Machine where
  program := #[]
  pc := ⟨-7⟩
  state := ⟨⟨#[10, 0, 255], Int64.minValue, by decide, by decide⟩, {}⟩

/-- The dump of two cells, and of more than there are. -/
theorem dump_read_back_astray :
    (astray.dump 2 {}).writer.received.toList =
      Bytes.ofString "\x1C-9223372036854775808\x1D-7\x1D10 0" ∧
    Dumped.read (Bytes.ofString "\x1C-9223372036854775808\x1D-7\x1D10 0") =
      some ⟨Int64.minValue, ⟨-7⟩, [10, 0]⟩ ∧
    ∃ text, (astray.dump 9 {}).writer.received.toList = text ∧
      Dumped.read text = some ⟨Int64.minValue, ⟨-7⟩, [10, 0, 255]⟩ := by
  have text : (astray.dump 2 {}).writer.received.toList =
      Bytes.ofString "\x1C-9223372036854775808\x1D-7\x1D10 0" := by decide +kernel
  obtain ⟨_, two, same, read⟩ := dump_read_back 2 astray {} fun _ => rfl
  obtain ⟨_, all, same', read'⟩ := dump_read_back 9 astray {} fun _ => rfl
  refine ⟨text, ?_, all, same', read'⟩
  rw [← text, same]
  exact read

end Machine

end TapeLang
