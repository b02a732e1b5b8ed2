import TapeLang.Source.Glyph

/-! # Characters do not depend on chunks

A source that is delivered without failure is read as if its bytes had come at
once. Reading stops as soon as the buffer starts with something decided, and what
is decided at the front of some bytes stays so when more bytes follow.
-/

namespace TapeLang

/-! ## What stands at the front -/

namespace Utf8

variable {width value more n : Nat} {low high b : UInt8} {bytes later : Bytes} {c : Char}

theorem extend_append (decided : extend width value more low high bytes ≠ .incomplete) :
    extend width value more low high (bytes ++ later) =
      extend width value more low high bytes := by
  fun_induction extend width value more low high bytes with
  | case1 => rfl
  | case2 => exact absurd rfl decided
  | case3 value more low high b rest inside ih =>
      rw [List.cons_append, extend, if_pos inside]
      exact ih decided
  | case4 value more low high b rest outside => rw [List.cons_append, extend, if_neg outside]

theorem length_lt_of_extend_incomplete
    (short : extend width value more low high bytes = .incomplete) : bytes.length < more := by
  fun_induction extend width value more low high bytes with
  | case1 | case4 => cases short
  | case2 => simp
  | case3 value more low high b rest inside ih => simpa using ih short

/-- The bytes after the first of a whole character. -/
theorem extend_whole (least : 0x80 ≤ low)
    (whole : extend width value more low high bytes = .whole c n) :
    n = width ∧ more ≤ bytes.length ∧ ∀ b ∈ bytes.take more, 0x80 ≤ b := by
  fun_induction extend width value more low high bytes with
  | case1 =>
      cases whole
      simp
  | case2 | case4 => cases whole
  | case3 value more low high b rest inside ih =>
      obtain ⟨same, enough, rest⟩ := ih (by decide) whole
      refine ⟨same, by simpa using enough, ?_⟩
      simp only [List.take_succ_cons, List.forall_mem_cons]
      exact ⟨UInt8.le_trans least inside.1, rest⟩

theorem value_le_of_extend_whole (whole : extend width value more low high bytes = .whole c n) :
    ∃ v, c = Char.ofNat v ∧ value * Nat.pow 64 more ≤ v := by
  fun_induction extend width value more low high bytes with
  | case1 value =>
      cases whole
      exact ⟨value, rfl, by simp⟩
  | case2 | case4 => cases whole
  | case3 value more low high b rest inside ih =>
      obtain ⟨v, same, le⟩ := ih whole
      refine ⟨v, same, Nat.le_trans ?_ le⟩
      calc value * Nat.pow 64 (more + 1) = value * 64 * Nat.pow 64 more := by
            rw [Nat.pow_eq, Nat.pow_succ, Nat.mul_comm (64 ^ more), Nat.mul_assoc]; rfl
        _ ≤ (value * 64 + b.toNat % 64) * Nat.pow 64 more :=
            Nat.mul_le_mul_right _ (Nat.le_add_right _ _)

/-- What the first byte of a character announces: one to three bytes follow, and
    what is encoded is no ASCII character. -/
structure Shape.Announced (b : UInt8) (s : Shape) : Prop where
  some_more : 1 ≤ s.more
  few_more : s.more ≤ 3
  low_le : 0x80 ≤ s.low
  high_le : s.high ≤ 0xBF
  value_le : 128 ≤ (leadBits b s.more * 64 + s.low.toNat % 64) * Nat.pow 64 (s.more - 1)

theorem Shape.announced {s : Shape} (lead : ofLead b = some s) : s.Announced b := by
  unfold ofLead at lead
  simp only [UInt8.lt_iff_toNat_lt, UInt8.le_iff_toNat_le, ← UInt8.toNat_inj] at lead
  have bound := b.toNat_lt
  repeat' split at lead
  all_goals cases lead
  all_goals
    refine ⟨by decide, by decide, by decide, by decide, ?_⟩
    simp [leadBits] at *
    omega

theorem Shape.Announced.value_of_whole {s : Shape} (announced : s.Announced b)
    (whole : extend width (leadBits b s.more) s.more s.low s.high bytes = .whole c n) :
    ∃ v, c = Char.ofNat v ∧ 128 ≤ v := by
  obtain ⟨more, low, high⟩ := s
  obtain ⟨some_more, _, low_le, high_le, value_le⟩ := announced
  dsimp only at some_more low_le high_le value_le whole
  obtain ⟨more, rfl⟩ : ∃ k, more = k + 1 := ⟨more - 1, by omega⟩
  cases bytes with
  | nil => cases whole
  | cons x rest =>
      rw [extend] at whole
      split at whole
      · next inside =>
          obtain ⟨v, same, le⟩ := value_le_of_extend_whole whole
          refine ⟨v, same, Nat.le_trans value_le (Nat.le_trans ?_ le)⟩
          apply Nat.mul_le_mul_right
          simp only [UInt8.le_iff_toNat_le] at inside low_le high_le
          have most : (0xBF : UInt8).toNat = 191 := rfl
          have least : (0x80 : UInt8).toNat = 128 := rfl
          omega
      · cases whole

theorem front_append (decided : front bytes ≠ .incomplete) (later : Bytes) :
    front (bytes ++ later) = front bytes := by
  cases bytes with
  | nil => exact absurd rfl decided
  | cons b rest =>
      rw [front] at decided
      rw [List.cons_append, front, front]
      split
      · rfl
      · next high =>
          rw [if_neg high] at decided
          cases lead : Shape.ofLead b with
          | none => rfl
          | some s =>
              simp only [lead] at decided
              exact extend_append decided

/-- Four bytes decide. -/
theorem length_lt_of_front_incomplete (short : front bytes = .incomplete) : bytes.length < 4 := by
  cases bytes with
  | nil => simp
  | cons b rest =>
      rw [front] at short
      split at short
      · cases short
      · cases lead : Shape.ofLead b with
        | none => simp [lead] at short
        | some s =>
            simp only [lead] at short
            have few := (Shape.announced lead).few_more
            have fewer := length_lt_of_extend_incomplete short
            simp only [List.length_cons]
            omega

theorem high_of_front (rest : Bytes) (notAscii : ∀ c, front (b :: rest) ≠ .whole c 1) :
    0x80 ≤ b := by
  rw [← UInt8.not_lt]
  intro ascii
  apply notAscii (Char.ofNat b.toNat)
  rw [front, if_pos ascii]

/-- A whole character is one ASCII byte, or several bytes none of which is ASCII. -/
theorem front_whole {rest : Bytes} (whole : front (b :: rest) = .whole c n) :
    (b < 0x80 ∧ c = Char.ofNat b.toNat ∧ n = 1) ∨
    (¬ b < 0x80 ∧ (∃ v, c = Char.ofNat v ∧ 128 ≤ v) ∧
      ∃ more, n = more + 1 ∧ more ≤ rest.length ∧ ∀ x ∈ rest.take more, 0x80 ≤ x) := by
  rw [front] at whole
  split at whole
  · next ascii =>
      cases whole
      exact .inl ⟨ascii, rfl, rfl⟩
  · next high =>
      refine .inr ⟨high, ?_⟩
      cases lead : Shape.ofLead b with
      | none => simp [lead] at whole
      | some s =>
          simp only [lead] at whole
          have announced := Shape.announced lead
          obtain ⟨rfl, enough, others⟩ := extend_whole announced.low_le whole
          exact ⟨announced.value_of_whole whole, s.more, rfl, enough, others⟩

end Utf8

/-! ## Chunks -/

/-- The chunks deliver the bytes: no read fails, and nothing comes after the end. -/
inductive Delivers : List Chunk → Bytes → Prop where
  | nil : Delivers [] []
  | more {data bytes : Bytes} {rest : List Chunk} (later : Delivers rest bytes) :
      Delivers (⟨data, .more⟩ :: rest) (data ++ bytes)
  | ended {data : Bytes} {rest : List Chunk} (nothing : Delivers rest []) :
      Delivers (⟨data, .ended⟩ :: rest) data

namespace Glyph

variable {t : Track} {reports : List Report} {b : UInt8} {rest later buffered bytes : Bytes}
  {chunks : List Chunk}

theorem front_of_full {data : Bytes} (left : data.drop (bufferSize - buffered.length) ≠ []) :
    Utf8.front (buffered ++ data.take (bufferSize - buffered.length)) ≠ .incomplete := by
  intro short
  have few := Utf8.length_lt_of_front_incomplete short
  have some : bufferSize - buffered.length < data.length := by
    simpa [List.drop_eq_nil_iff] using left
  simp only [List.length_append, List.length_take, bufferSize] at few some
  omega

/-- Refilling moves bytes to the buffer until something is decided. -/
theorem refill_delivered (buffered : Bytes) (delivers : Delivers chunks bytes) :
    ∃ buffered' left bytes', refill buffered chunks = (none, buffered', left) ∧
      Delivers left bytes' ∧ buffered' ++ bytes' = buffered ++ bytes ∧
      (Utf8.front buffered' ≠ .incomplete ∨ bytes' = []) := by
  induction delivers generalizing buffered with
  | nil => exact ⟨buffered, [], [], by simp [refill], .nil, rfl, .inr rfl⟩
  | @more data bytes rest later ih =>
      by_cases short : Utf8.front buffered = .incomplete
      · rw [refill, if_pos short]
        cases left : data.drop (bufferSize - buffered.length) with
        | nil =>
            obtain ⟨buffered', left, bytes', same, later, split, decided⟩ :=
              ih (buffered ++ data)
            exact ⟨buffered', left, bytes', same, later, by simpa using split, decided⟩
        | cons x xs =>
            refine ⟨_, _, _, rfl, .more later, ?_, .inl (front_of_full (by simp [left]))⟩
            rw [← left, List.append_assoc, ← List.append_assoc (List.take _ data),
              List.take_append_drop]
      · exact ⟨buffered, _, _, by rw [refill, if_neg short], .more later, rfl, .inl short⟩
  | @ended data rest nothing ih =>
      by_cases short : Utf8.front buffered = .incomplete
      · rw [refill, if_pos short]
        cases left : data.drop (bufferSize - buffered.length) with
        | nil => exact ⟨_, _, [], rfl, nothing, by simp, .inr rfl⟩
        | cons x xs =>
            refine ⟨_, _, _, rfl, .ended nothing, ?_, .inl (front_of_full (by simp [left]))⟩
            rw [← left, List.append_assoc, List.take_append_drop]
      · exact ⟨buffered, _, _, by rw [refill, if_neg short], .ended nothing, rfl, .inl short⟩

theorem decode_append (decided : Utf8.front (b :: rest) ≠ .incomplete) :
    decode t reports b (rest ++ later) =
      ((decode t reports b rest).1, (decode t reports b rest).2.1,
        (decode t reports b rest).2.2 ++ later) := by
  have same := Utf8.front_append decided later
  rw [List.cons_append] at same
  unfold decode
  rw [same]
  cases front : Utf8.front (b :: rest) with
  | incomplete => exact absurd front decided
  | malformed => rfl
  | whole c width =>
      have enough : width - 1 ≤ rest.length := by
        rcases Utf8.front_whole front with ⟨_, _, rfl⟩ | ⟨_, _, more, rfl, enough, _⟩
        · simp
        · exact enough
      have taken : (b :: (rest ++ later)).take width = (b :: rest).take width := by
        rw [← List.cons_append, List.take_append_of_le_length (by rw [List.length_cons]; omega)]
      simp only [taken, List.drop_append_of_le_length enough]

/-- The glyphs of bytes that are all there. -/
def spell (t : Track) : Bytes → List Glyph
  | [] => [⟨none, [], t.finish.position, []⟩]
  | b :: rest =>
    (decode t [] b rest).1 :: spell (decode t [] b rest).2.1 (decode t [] b rest).2.2
termination_by bytes => bytes.length
decreasing_by
  exact Nat.lt_succ_of_le (length_decode_le t [] b rest)

theorem gather_delivered {before : Array Glyph} (delivers : Delivers chunks bytes) :
    (gather before t buffered chunks).toList = before.toList ++ spell t (buffered ++ bytes) := by
  fun_induction gather before t buffered chunks generalizing bytes with
  | case1 before t buffered chunks message left filled =>
      obtain ⟨_, _, bytes', same, _, split, decided⟩ := refill_delivered buffered delivers
      cases filled.symm.trans same
      rcases decided with decided | rfl
      · exact absurd rfl decided
      · rw [← split]
        simp [spell]
  | case2 before t buffered chunks message b rest left filled decoded =>
      rename_i ih
      obtain ⟨_, _, bytes', same, later, split, decided⟩ := refill_delivered buffered delivers
      cases filled.symm.trans same
      -- the bytes still to come do not change what is decoded now
      have read :
          decode t [] b (rest ++ bytes') = (decoded.1, decoded.2.1, decoded.2.2 ++ bytes') := by
        rcases decided with decided | rfl
        · exact decode_append decided
        · simp only [List.append_nil]
          rfl
      rw [ih later, ← split, List.cons_append, spell, read]
      simp

/-- However a source is delivered, its glyphs are those of its bytes. -/
theorem ofChunks_eq_spell (delivers : Delivers chunks bytes) :
    ofChunks chunks = spell {} bytes := by
  rw [ofChunks, gather_delivered delivers]
  rfl

end Glyph

end TapeLang
