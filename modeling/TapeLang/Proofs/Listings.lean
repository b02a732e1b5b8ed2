import TapeLang.Assembly.Listing
import TapeLang.Proofs.MachineRuns
import TapeLang.Proofs.Printing
import TapeLang.Proofs.Words

/-! # Listings

A listing tells where each instruction stands and where each jump leads, and the
assembler makes the program again from what it says about the instructions. Notes
about jumps are comments there, so the numbers in them do not matter.
-/

namespace TapeLang

/-! ## Numerals -/

namespace Bytes

theorem ofString_append (s t : String) : ofString (s ++ t) = ofString s ++ ofString t := by
  simp [ofString, String.toUTF8]

theorem ofString_ofList (cs : List Char) :
    ofString (String.ofList cs) = cs.flatMap String.utf8EncodeChar := by
  simp [ofString, String.toUTF8, List.utf8Encode]

end Bytes

namespace Decimal

theorem utf8EncodeChar_digitChar (n : Nat) :
    String.utf8EncodeChar (n % 10).digitChar = [digit n] := by
  have all : ∀ d < 10, String.utf8EncodeChar d.digitChar = [(48 + d).toUInt8] := by decide
  exact all (n % 10) (Nat.mod_lt n (by decide))

theorem ofNat_eq_toString (n : Nat) : ofNat n = Bytes.ofString (toString n) := by
  change ofNat n = Bytes.ofString (String.ofList (Nat.toDigits 10 n))
  rw [Bytes.ofString_ofList]
  fun_induction ofNat n with
  | case1 n small =>
      rw [Nat.toDigits_of_lt_base small, List.flatMap_singleton, ← utf8EncodeChar_digitChar,
        Nat.mod_eq_of_lt small]
  | case2 n large ih =>
      rw [Nat.toDigits_of_base_le (by decide) (by omega), List.flatMap_append, ih,
        List.flatMap_singleton, utf8EncodeChar_digitChar]

theorem ofInt_eq_toString (n : Int) : ofInt n = Bytes.ofString (toString n) := by
  cases n with
  | ofNat n => exact ofNat_eq_toString n
  | negSucc n =>
      change 45 :: ofNat (n + 1) = Bytes.ofString ("-" ++ Nat.repr (n + 1))
      rw [Bytes.ofString_append, ofNat_eq_toString]
      rfl

theorem alignRight_eq_leftpad (text : Bytes) :
    alignRight Assembly.addressWidth text = text.leftpad 10 32 := by
  have width : (Assembly.addressWidth - text.length).toNat = 10 - text.length := by
    rw [Assembly.addressWidth]
    omega
  rw [alignRight, width, List.leftpad]

/-- The bytes of numerals. -/
def IsMark (b : UInt8) : Prop :=
  b = 45 ∨ 48 ≤ b ∧ b ≤ 57

theorem isMark_digit (n : Nat) : IsMark (digit n) := by
  have all : ∀ d < 10, 48 ≤ (48 + d).toUInt8 ∧ (48 + d).toUInt8 ≤ 57 := by decide
  exact .inr (all (n % 10) (Nat.mod_lt n (by decide)))

theorem isMark_of_mem_ofNat {n : Nat} : ∀ b ∈ ofNat n, IsMark b := by
  fun_induction ofNat n with
  | case1 n => simpa using isMark_digit n
  | case2 n _ ih =>
      intro b member
      rcases List.mem_append.mp member with member | member
      · exact ih b member
      · cases List.mem_singleton.mp member
        exact isMark_digit n

theorem ofNat_ne_nil (n : Nat) : ofNat n ≠ [] := by
  rw [ofNat]
  split <;> simp

theorem isMark_of_mem_ofInt {n : Int} : ∀ b ∈ ofInt n, IsMark b := by
  cases n with
  | ofNat n => exact isMark_of_mem_ofNat
  | negSucc n => exact List.forall_mem_cons.mpr ⟨.inl rfl, isMark_of_mem_ofNat⟩

theorem ofInt_ne_nil (n : Int) : ofInt n ≠ [] := by
  cases n with
  | ofNat n => exact ofNat_ne_nil n
  | negSucc n => simp [ofInt]

theorem IsMark.visible {b : UInt8} (mark : IsMark b) : 33 ≤ b ∧ b ≤ 126 := by
  rcases mark with rfl | ⟨low, high⟩
  · decide
  · exact ⟨UInt8.le_trans (by decide) low, UInt8.le_trans high (by decide)⟩

end Decimal

/-! ## What a listing says -/

/-- Where the program goes on if the jump at an index is taken. -/
def Instruction.lands (k : Nat) (i : Instruction) : Option Int :=
  match i.op with
  | .jez => some (k + i.arg.toNat + 1)
  | .jnz => some (k - i.arg.toNat + 1)
  | _ => none

/-- The instruction is a jump that is taken in this state. -/
def Instruction.Taken (i : Instruction) (s : State) : Prop :=
  i.op = .jez ∧ s.tape.cell = 0 ∨ i.op = .jnz ∧ s.tape.cell ≠ 0

/-- The instruction is written in one way only: it has no operands that its opcode does not use,
    and an addition adds a byte. -/
structure Instruction.Canonical (i : Instruction) : Prop where
  named : i.op.isNamed = true
  tidy : i.Tidy
  byte : i.op = .add → i.arg ≤ 255

instance (i : Instruction) : Decidable i.Canonical :=
  decidable_of_iff (i.op.isNamed = true ∧ ((i.op.arity < 1 → i.arg = 0) ∧
    (i.op.arity < 2 → i.arg2 = 0)) ∧ (i.op = .add → i.arg ≤ 255))
    ⟨fun ⟨named, ⟨unused, unused2⟩, byte⟩ => ⟨named, ⟨unused, unused2⟩, byte⟩,
      fun ⟨named, ⟨unused, unused2⟩, byte⟩ => ⟨named, ⟨unused, unused2⟩, byte⟩⟩

/-- Numbers of 64 bits. -/
def FitsWord (n : Int) : Prop :=
  Int64.minValue.toInt ≤ n ∧ n ≤ Int64.maxValue.toInt

instance (n : Int) : Decidable (FitsWord n) :=
  inferInstanceAs (Decidable (_ ∧ _))

/-- No address in the listing wraps around, nor that of a jump's target. -/
def Program.FitsAt (base : Int) (p : Program) : Prop :=
  ∀ x ∈ p.toList.zipIdx, FitsWord (base + x.2) ∧ ∀ t ∈ x.1.lands x.2, FitsWord (base + t)

instance (base : Int) (p : Program) : Decidable (p.FitsAt base) :=
  inferInstanceAs (Decidable (∀ x ∈ p.toList.zipIdx, _))

namespace Assembly

/-- The note about the address where a jump leads. -/
def jumpNote (base : Int) : Option Int → Bytes
  | some t => Bytes.ofString "\t( " ++ Bytes.ofString (toString (base + t)) ++ Bytes.ofString " )"
  | none => []

/-- What the listing says about an instruction. -/
def lineBody (base : Int) (k : Nat) (i : Instruction) : Bytes :=
  Bytes.ofString i.op.name ++
    (i.operands.flatMap fun n => 32 :: Bytes.ofString (toString n.toNat)) ++
    jumpNote base (i.lands k)

/-- The address in a field of ten characters, and then the instruction. -/
def line (base : Int) (k : Nat) (i : Instruction) : Bytes :=
  (Bytes.ofString (toString (base + k))).leftpad 10 32 ++ 9 :: lineBody base k i

variable {base : Int64} {k n : Nat} {i : Instruction} {p : Program} {t : Int}

theorem step_of_taken {s : State} (found : p[k]? = some i) (lands : i.lands k = some t)
    (on : s.tape.OnTape) (taken : i.Taken s) :
    (Machine.amid p k n s).step = (⟨p, ⟨t⟩, n + 1, s⟩, none) := by
  have same := Machine.stepAs_amid (f := false) (n := n) (s := s) found
  rw [Machine.stepAs_false, Instruction.execAs_false] at same
  obtain ⟨op, arg, arg2⟩ := i
  rcases taken with ⟨rfl, zero⟩ | ⟨rfl, nonzero⟩
  · cases lands
    rw [same, Instruction.exec_jez arg arg2 on, if_pos zero]
  · cases lands
    rw [same, Instruction.exec_jnz arg arg2 on, if_neg nonzero]
    simp only [Int.sub_eq_add_neg]

/-! ## Writing it -/

theorem toInt_ofInt_of_fits {n : Int} (fits : FitsWord n) : (Int64.ofInt n).toInt = n :=
  Int64.toInt_ofInt_of_le fits.1 (Int.lt_of_le_of_lt fits.2 (by decide))

theorem address_eq (base : Int64) (k : Nat) :
    base + Int64.ofNat k = Int64.ofInt (base.toInt + k) := by
  rw [Int64.ofInt_add, Int64.ofInt_toInt]
  rfl

theorem target?_address (base : Int64) (k : Nat) (i : Instruction) :
    target? (base + Int64.ofNat k) i = (i.lands k).map fun t => Int64.ofInt (base.toInt + t) := by
  have distance : Int64.ofNat i.arg.toNat = Int64.ofInt i.arg.toNat := rfl
  have one : (1 : Int64) = Int64.ofInt 1 := rfl
  unfold target? Instruction.lands
  cases i.op with
  | jez =>
      have ahead : base.toInt + k + i.arg.toNat + 1 = base.toInt + (k + i.arg.toNat + 1) := by omega
      simp only [Option.map_some, address_eq, distance, one]
      rw [← Int64.ofInt_add, ← Int64.ofInt_add, ahead]
  | jnz =>
      have back : base.toInt + k - i.arg.toNat + 1 = base.toInt + (k - i.arg.toNat + 1) := by omega
      simp only [Option.map_some, address_eq, distance, one]
      rw [← Int64.ofInt_sub, ← Int64.ofInt_add, back]
  | _ => rfl

theorem flatten_flatMap {α : Type} (l : List α) (f : α → List Bytes) :
    (l.flatMap f).flatten = l.flatMap fun x => (f x).flatten := by
  simp only [← List.flatMap_id, List.flatMap_assoc]

theorem flatten_notePieces (targets : ∀ t, i.lands k = some t → FitsWord (base.toInt + t)) :
    (notePieces (base + Int64.ofNat k) i).flatten = jumpNote base.toInt (i.lands k) := by
  rw [notePieces, target?_address]
  cases leads : i.lands k with
  | none => rfl
  | some t =>
      rw [jumpNote, ← Decimal.ofInt_eq_toString, Option.map_some]
      simp only [toInt_ofInt_of_fits (targets t leads)]
      simp

theorem flatten_linePieces (fits : FitsWord (base.toInt + k))
    (targets : ∀ t, i.lands k = some t → FitsWord (base.toInt + t)) :
    (linePieces (base + Int64.ofNat k) i).flatten = line base.toInt k i ++ [10] := by
  have address : (base + Int64.ofNat k).toInt = base.toInt + k := by
    rw [address_eq, toInt_ofInt_of_fits fits]
  have instruction : (instructionPieces i).flatten = Bytes.ofString i.op.name ++
      i.operands.flatMap fun n => 32 :: Bytes.ofString (toString n.toNat) := by
    rw [instructionPieces, List.flatten_cons, flatten_flatMap]
    simp only [Decimal.ofNat_eq_toString, List.flatten_cons, List.flatten_nil, List.append_nil,
      List.cons_append, List.nil_append]
  rw [linePieces, address, Decimal.alignRight_eq_leftpad, Decimal.ofInt_eq_toString]
  simp only [List.flatten_append, flatten_notePieces targets, instruction, line, lineBody]
  simp only [List.flatten_cons, List.flatten_nil, List.append_assoc, List.append_nil,
    List.cons_append, List.nil_append]

theorem list_accepted {w : Writer} (accepts : ∀ n, w.onWrite n = .accept)
    (fits : p.FitsAt base.toInt) : (list base p w).failure = none ∧
      (list base p w).writer.received.toList = w.received.toList ++
        p.toList.zipIdx.flatMap fun (i, k) => line base.toInt k i ++ [10] := by
  have pieces : (listingPieces base p).flatten =
      p.toList.zipIdx.flatMap fun (i, k) => line base.toInt k i ++ [10] := by
    rw [listingPieces, flatten_flatMap]
    apply List.flatMap_congr
    intro (i, k) member
    obtain ⟨fits, targets⟩ := fits (i, k) member
    exact flatten_linePieces fits targets
  rw [← pieces, list_eq_printAll]
  exact (Printer.printed_pieces (listingPieces base p) w).accepted accepts

/-! ## Reading it back -/

/-- The words of an instruction. -/
def wordsOf (i : Instruction) : List Bytes :=
  Bytes.ofString i.op.name :: i.operands.map fun n => Decimal.ofNat n.toNat

/-- The words of the note about where a jump leads. -/
def noteWords (base : Int) : Option Int → List Bytes
  | some t => [Bytes.ofString "(", Decimal.ofInt (base + t), Bytes.ofString ")"]
  | none => []

theorem isWord_of_marks {w : Bytes} (nonempty : w ≠ []) (marks : ∀ b ∈ w, Decimal.IsMark b) :
    IsWord w :=
  ⟨nonempty, fun b member => (marks b member).visible⟩

theorem ne_of_marks {w : Bytes} {b : UInt8} (marks : ∀ b ∈ w, Decimal.IsMark b)
    (other : ¬ Decimal.IsMark b) : w ≠ [b] := by
  intro same
  rw [same] at marks
  exact other (marks b (List.mem_singleton.mpr rfl))

theorem mem_named {op : Opcode} (named : op.isNamed = true) : op ∈ Opcode.named := by
  cases op with
  | unassigned => cases named
  | _ => decide

theorem name_isWord {op : Opcode} (named : op.isNamed = true) :
    IsWord (Bytes.ofString op.name) ∧ Bytes.ofString op.name ≠ Bytes.ofString "(" := by
  have all : ∀ op ∈ Opcode.named, (Bytes.ofString op.name ≠ [] ∧
      ∀ b ∈ Bytes.ofString op.name, 33 ≤ b ∧ b ≤ 126) ∧
        Bytes.ofString op.name ≠ Bytes.ofString "(" := by decide +kernel
  obtain ⟨⟨nonempty, visible⟩, plain⟩ := all op (mem_named named)
  exact ⟨⟨nonempty, visible⟩, plain⟩

/-- A blank, and then words. -/
def Separated (text : Bytes) (words : List Bytes) : Prop :=
  ∃ b rest, text = b :: rest ∧ IsGap b ∧ Spaced rest words

theorem Separated.word {w text : Bytes} {words : List Bytes} (separated : Separated text words)
    (isWord : IsWord w) : Spaced (w ++ text) (w :: words) := by
  obtain ⟨b, rest, rfl, gap, spaced⟩ := separated
  exact .word isWord gap spaced

theorem separated_operands {text : Bytes} {words : List Bytes} (separated : Separated text words)
    (ns : List UInt16) :
    Separated ((ns.flatMap fun n => 32 :: Bytes.ofString (toString n.toNat)) ++ text)
      ((ns.map fun n => Decimal.ofNat n.toNat) ++ words) := by
  simp only [← Decimal.ofNat_eq_toString]
  induction ns with
  | nil => exact separated
  | cons n ns ih =>
      have isWord := isWord_of_marks (Decimal.ofNat_ne_nil n.toNat) Decimal.isMark_of_mem_ofNat
      rw [List.flatMap_cons, List.append_assoc]
      exact ⟨32, _, rfl, .inr (.inr rfl), ih.word isWord⟩

theorem separated_note {text : Bytes} {words : List Bytes} (separated : Separated text words)
    (base : Int) (lands : Option Int) :
    Separated (jumpNote base lands ++ text) (noteWords base lands ++ words) := by
  cases lands with
  | none => exact separated
  | some t =>
      have opening : IsWord (Bytes.ofString "(") := ⟨by decide, by decide +kernel⟩
      have closing : IsWord (Bytes.ofString ")") := ⟨by decide, by decide +kernel⟩
      have isWord := isWord_of_marks (Decimal.ofInt_ne_nil (base + t)) Decimal.isMark_of_mem_ofInt
      have blank : IsGap 32 := .inr (.inr rfl)
      have number : Separated (32 :: (Bytes.ofString ")" ++ text)) (Bytes.ofString ")" :: words) :=
        ⟨32, _, rfl, blank, separated.word closing⟩
      have opened : Separated
          (32 :: (Decimal.ofInt (base + t) ++ 32 :: (Bytes.ofString ")" ++ text)))
          (Decimal.ofInt (base + t) :: Bytes.ofString ")" :: words) :=
        ⟨32, _, rfl, blank, number.word isWord⟩
      rw [jumpNote, ← Decimal.ofInt_eq_toString, List.append_assoc, List.append_assoc]
      exact ⟨9, _, rfl, .inl rfl, opened.word opening⟩

theorem spaced_lineBody (base : Int) (k : Nat) (canonical : i.Canonical) :
    Spaced (lineBody base k i ++ [10]) (wordsOf i ++ noteWords base (i.lands k)) := by
  have last : Separated [10] [] := ⟨10, [], rfl, .inr (.inl rfl), .nil⟩
  have separated := separated_operands (separated_note last base (i.lands k)) i.operands
  have spaced := separated.word (name_isWord canonical.named).1
  simpa [lineBody, wordsOf] using spaced

theorem uncommented_line (base : Int) (k : Nat) (canonical : i.Canonical) :
    Uncommented (wordsOf i ++ noteWords base (i.lands k)) (wordsOf i) := by
  -- no numeral is a parenthesis, so the note ends at its own
  have notMark : ∀ b ∈ [40, 41], ¬ Decimal.IsMark b := by
    simp only [Decimal.IsMark]
    decide +kernel
  have plain : Uncommented (wordsOf i) (wordsOf i) := by
    apply Uncommented.of_plain
    refine List.forall_mem_cons.mpr ⟨(name_isWord canonical.named).2, List.forall_mem_map.mpr ?_⟩
    intro n _
    exact ne_of_marks Decimal.isMark_of_mem_ofNat (notMark 40 (by simp))
  have note : Uncommented (noteWords base (i.lands k)) [] := by
    cases i.lands k with
    | none => exact .nil
    | some t =>
        have within : ∀ w ∈ [Decimal.ofInt (base + t)], w ≠ Bytes.ofString ")" := by
          intro w member
          cases List.mem_singleton.mp member
          exact ne_of_marks Decimal.isMark_of_mem_ofInt (notMark 41 (by simp))
        exact .comment within .nil
  simpa using plain.append note

theorem gives_ofNat {n : UInt16} (canonical : i.Canonical) (operand : n ∈ i.operands) :
    Gives i.op (Decimal.ofNat n.toNat) n := by
  refine ⟨n.toNat, IntLiteral.denotes_ofNat n.toNat, ?_⟩
  split
  · next add =>
      have only : i.operands = [i.arg] := by simp [Instruction.operands, add, Opcode.arity]
      rw [only] at operand
      cases List.mem_singleton.mp operand
      have small : i.arg.toNat ≤ 255 := UInt16.le_iff_toNat_le.mp (canonical.byte add)
      omega
  · have small := n.toNat_lt
    omega

theorem spells_wordsOf (canonical : i.Canonical) : Spells i (wordsOf i) := by
  refine ⟨canonical.tidy, _, _, rfl, ⟨mem_named canonical.named, .inl rfl⟩, ?_⟩
  rw [List.forall₂_map_left_iff, List.forall₂_same]
  intro n operand
  exact gives_ofNat canonical operand

/-- The lines without their addresses spell the program. -/
theorem reads_back (base : Int) {gap : Bytes} (blank : ∀ b ∈ gap, IsGap b)
    {lines : List (Instruction × Nat)} (canonical : ∀ x ∈ lines, x.1.Canonical) :
    ∃ words others, Spaced (lines.flatMap fun (i, k) => gap ++ lineBody base k i ++ [10]) words ∧
      Uncommented words others ∧ SpellsAll (lines.map Prod.fst) others := by
  have ahead : Spaced gap [] := by
    induction gap with
    | nil => exact .nil
    | cons b gap ih =>
        obtain ⟨here, blank⟩ := List.forall_mem_cons.mp blank
        exact .gap here (ih blank)
  induction lines with
  | nil => exact ⟨[], [], .nil, .nil, spellsAll_nil.mpr rfl⟩
  | cons x lines ih =>
      obtain ⟨i, k⟩ := x
      obtain ⟨here, canonical⟩ := List.forall_mem_cons.mp canonical
      obtain ⟨words, others, spaced, uncommented, spelled⟩ := ih canonical
      refine ⟨_, _, ?_, (uncommented_line base k here).append uncommented,
        spellsAll_cons.mpr ⟨wordsOf i, others, spells_wordsOf here, spelled, rfl⟩⟩
      have first := ahead.append (spaced_lineBody base k here)
      rw [List.flatMap_cons]
      simpa using first.append spaced

theorem newline_notMem_numeral (n : Int) : 10 ∉ Bytes.ofString (toString n) := by
  rw [← Decimal.ofInt_eq_toString]
  intro member
  have visible := (Decimal.isMark_of_mem_ofInt 10 member).visible
  exact absurd visible.1 (by decide)

theorem newline_notMem_line (base : Int) (k : Nat) (canonical : i.Canonical) :
    10 ∉ line base k i := by
  have name : 10 ∉ Bytes.ofString i.op.name := by
    intro member
    exact absurd ((name_isWord canonical.named).1.visible 10 member).1 (by decide)
  have operands : 10 ∉ i.operands.flatMap fun n => 32 :: Bytes.ofString (toString n.toNat) := by
    intro member
    obtain ⟨n, _, member⟩ := List.mem_flatMap.mp member
    rcases List.mem_cons.mp member with blank | member
    · cases blank
    · exact newline_notMem_numeral n.toNat member
  have note : 10 ∉ jumpNote base (i.lands k) := by
    cases i.lands k with
    | none => exact List.not_mem_nil
    | some t =>
        have opening : 10 ∉ Bytes.ofString "\t( " := by decide
        have closing : 10 ∉ Bytes.ofString " )" := by decide
        simp only [jumpNote, List.mem_append, opening, newline_notMem_numeral, closing, or_self,
          not_false_eq_true]
  have padding : ∀ n, (10 : UInt8) ∉ List.replicate n 32 := by
    intro n member
    cases (List.mem_replicate.mp member).2
  simp only [line, lineBody, List.leftpad, List.mem_append, List.mem_cons, padding,
    newline_notMem_numeral, name, operands, note, or_false, false_or]
  decide

theorem jumpNote_suffix_line (base : Int) (k : Nat) (i : Instruction) :
    jumpNote base (i.lands k) <:+ line base k i := by
  have note : jumpNote base (i.lands k) <:+ lineBody base k i := List.suffix_append ..
  have body : lineBody base k i <:+ 9 :: lineBody base k i := List.suffix_cons ..
  exact (note.trans body).trans (List.suffix_append ..)

/-- The listing has a line for each instruction. A line says where the instruction stands, and for
    a jump also where the program goes on if it is taken. Without the addresses, the lines assemble
    to the program. -/
theorem assemble_listing (base : Int64) (p : Program) (w : Writer)
    (canonical : ∀ i ∈ p, i.Canonical) (fits : p.FitsAt base.toInt)
    (accepts : ∀ n, w.onWrite n = .accept) :
    ((list base p w).failure = none ∧
      (list base p w).writer.received.toList = w.received.toList ++
        p.toList.zipIdx.flatMap fun (i, k) => line base.toInt k i ++ [10]) ∧
    (∀ i ∈ p, ∀ k, 10 ∉ line base.toInt k i) ∧
    (∀ (k : Nat) (i : Instruction), p[k]? = some i → i.op = .jez ∨ i.op = .jnz →
      ∃ t, jumpNote base.toInt (some t) <:+ line base.toInt k i ∧
        ∀ n s, s.tape.OnTape → i.Taken s →
          (Machine.amid p k n s).step = (⟨p, ⟨t⟩, n + 1, s⟩, none)) ∧
    ∀ (gap : Bytes) (chunks : List Chunk), (∀ b ∈ gap, b = 9 ∨ b = 32) →
      Delivers chunks (p.toList.zipIdx.flatMap fun (i, k) =>
        gap ++ lineBody base.toInt k i ++ [10]) →
      assemble chunks = .ok p := by
  refine ⟨list_accepted accepts fits, ?_, ?_, ?_⟩
  · intro i member k
    exact newline_notMem_line base.toInt k (canonical i member)
  · intro k i found jump
    have jumps : ∃ t, i.lands k = some t := by
      rcases jump with jump | jump <;> simp [Instruction.lands, jump]
    obtain ⟨t, lands⟩ := jumps
    refine ⟨t, ?_, fun n s on taken => step_of_taken found lands on taken⟩
    rw [← lands]
    exact jumpNote_suffix_line base.toInt k i
  · intro gap chunks blank delivers
    have blanks : ∀ b ∈ gap, IsGap b := by
      intro b member
      exact (blank b member).imp id .inr
    have lines : ∀ x ∈ p.toList.zipIdx, x.1.Canonical := by
      intro x member
      exact canonical x.1 (Array.mem_toList_iff.mp (List.fst_mem_of_mem_zipIdx member))
    obtain ⟨words, others, spaced, uncommented, spelled⟩ := reads_back base.toInt blanks lines
    rw [List.zipIdx_map_fst] at spelled
    exact assemble_eq_ok_iff.mpr (uncommented.grammatical (items_of_spaced delivers spaced) spelled)

/-- A jump back to before the program. -/
theorem assemble_listing_jumpBack :
    (list (-3) #[⟨.jnz, 5, 0⟩, ⟨.mandel, 65535, 8⟩, ⟨.add, 255, 0⟩] {}).writer.received.toList =
      Bytes.ofString
        "        -3\tjnz 5\t( -7 )\n        -2\tmandel 65535 8\n        -1\tadd 255\n" ∧
    assemble [⟨Bytes.ofString "\tjnz 5\t( -7 )\n\tmandel 65535 8\n", .more⟩,
      ⟨Bytes.ofString "\tadd 255\n", .ended⟩] =
        .ok #[⟨.jnz, 5, 0⟩, ⟨.mandel, 65535, 8⟩, ⟨.add, 255, 0⟩] := by
  obtain ⟨⟨_, text⟩, _, _, back⟩ := assemble_listing (-3)
    #[⟨.jnz, 5, 0⟩, ⟨.mandel, 65535, 8⟩, ⟨.add, 255, 0⟩] {} (by decide +kernel) (by decide +kernel)
    (fun _ => rfl)
  refine ⟨text.trans (by decide +kernel), back [9] _ (by simp) ?_⟩
  have same : (#[⟨.jnz, 5, 0⟩, ⟨.mandel, 65535, 8⟩, ⟨.add, 255, 0⟩] : Program).toList.zipIdx.flatMap
      (fun (i, k) => [9] ++ lineBody (-3 : Int64).toInt k i ++ [10]) =
        Bytes.ofString "\tjnz 5\t( -7 )\n\tmandel 65535 8\n" ++ Bytes.ofString "\tadd 255\n" := by
    decide +kernel
  rw [same]
  exact .more (.ended .nil)

end Assembly

end TapeLang
