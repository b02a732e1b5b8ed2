import TapeLang.Proofs.Delivery

/-! # Characters and their encodings

A whole character stands at the front of a byte string exactly if its UTF-8
encoding does.
-/

namespace TapeLang.Utf8

variable {width value more n k : Nat} {low high b : UInt8} {bytes rest : Bytes} {c : Char}

theorem toNat_ofNat_of_valid {v : Nat} (valid : v.isValidChar) : (Char.ofNat v).val.toNat = v := by
  rw [Char.ofNat, dif_pos valid]
  rfl

theorem extend_succ_eq_whole
    (whole : extend width value (more + 1) low high bytes = .whole c n) :
    ∃ x rest, bytes = x :: rest ∧ low.toNat ≤ x.toNat ∧ x.toNat ≤ high.toNat ∧
      extend width (value * 64 + x.toNat % 64) more 0x80 0xBF rest = .whole c n := by
  cases bytes with
  | nil => cases whole
  | cons x rest =>
      rw [extend] at whole
      split at whole
      · next inside =>
          exact ⟨x, rest, rfl, UInt8.le_iff_toNat_le.mp inside.1, UInt8.le_iff_toNat_le.mp inside.2,
            whole⟩
      · cases whole

/-- A byte that goes on with six bits. -/
theorem extend_cons (inside : low.toNat ≤ k + 128 ∧ k + 128 ≤ high.toNat) (small : k < 64) :
    extend width value (more + 1) low high (UInt8.ofNat (k + 128) :: rest) =
      extend width (value * 64 + k) more 0x80 0xBF rest := by
  have number : (UInt8.ofNat (k + 128)).toNat = k + 128 :=
    UInt8.toNat_ofNat_of_lt' (Nat.lt_of_lt_of_le (by omega : k + 128 < 192) (by decide))
  have bits : (k + 128) % 64 = k := by omega
  rw [extend, if_pos, number, bits]
  simp only [UInt8.le_iff_toNat_le, number]
  exact inside

theorem front_of_lead {s : Shape} (notAscii : ¬ b < 0x80) (lead : Shape.ofLead b = some s) :
    front (b :: rest) = extend (s.more + 1) (leadBits b s.more) s.more s.low s.high rest := by
  rw [front, if_neg notAscii]
  simp only [lead]

/-- What the first byte of two, of three and of four announces. -/
theorem ofLead_two : ∀ k < 32, 2 ≤ k → ¬ UInt8.ofNat (k + 192) < 0x80 ∧
    Shape.ofLead (UInt8.ofNat (k + 192)) = some ⟨1, 0x80, 0xBF⟩ ∧
      leadBits (UInt8.ofNat (k + 192)) 1 = k := by
  decide

theorem ofLead_three : ∀ k < 16, ¬ UInt8.ofNat (k + 224) < 0x80 ∧
    Shape.ofLead (UInt8.ofNat (k + 224)) =
      some ⟨2, if k = 0 then 0xA0 else 0x80, if k = 13 then 0x9F else 0xBF⟩ ∧
      leadBits (UInt8.ofNat (k + 224)) 2 = k := by
  decide

theorem ofLead_four : ∀ k < 5, ¬ UInt8.ofNat (k + 240) < 0x80 ∧
    Shape.ofLead (UInt8.ofNat (k + 240)) =
      some ⟨3, if k = 0 then 0x90 else 0x80, if k = 4 then 0x8F else 0xBF⟩ ∧
      leadBits (UInt8.ofNat (k + 240)) 3 = k := by
  decide

/-- The encoding of a character is found at the front, whatever follows it. -/
theorem front_encode (c : Char) (rest : Bytes) :
    front (String.utf8EncodeChar c ++ rest) = .whole c (String.utf8EncodeChar c).length := by
  obtain ⟨v, whole⟩ : ∃ v, v = c.val.toNat := ⟨_, rfl⟩
  have valid : v.isValidChar := whole ▸ c.valid
  have character : Char.ofNat v = c := by
    apply Char.ext
    apply UInt32.toNat_inj.mp
    rw [toNat_ofNat_of_valid valid, whole]
  have range : v < 55296 ∨ 57343 < v ∧ v < 1114112 := valid
  rw [String.utf8EncodeChar.eq_1, ← whole]
  split
  · next small =>
      have number : (UInt8.ofNat v).toNat = v :=
        UInt8.toNat_ofNat_of_lt' (Nat.lt_of_le_of_lt small (by decide))
      rw [List.cons_append, front, if_pos, number, character]
      · rfl
      · rw [UInt8.lt_iff_toNat_lt, number]
        exact Nat.lt_succ_of_le small
  split
  · have first : v / 64 % 32 = v / 64 := by omega
    obtain ⟨notAscii, lead, bits⟩ := ofLead_two (v / 64) (by omega) (by omega)
    rw [first, List.cons_append, front_of_lead notAscii lead, bits, List.cons_append,
      extend_cons (by simp; omega) (by omega), extend]
    have total : v / 64 * 64 + v % 64 = v := by omega
    rw [total, character]
    rfl
  split
  · have first : v / 4096 % 16 = v / 4096 := by omega
    obtain ⟨notAscii, lead, bits⟩ := ofLead_three (v / 4096) (by omega)
    have least : (if v / 4096 = 0 then (0xA0 : UInt8) else 0x80).toNat ≤ v / 64 % 64 + 128 := by
      split
      · have second : 32 ≤ v / 64 % 64 := by omega
        simpa using second
      · simp
    have most : v / 64 % 64 + 128 ≤ (if v / 4096 = 13 then (0x9F : UInt8) else 0xBF).toNat := by
      split <;> simp <;> omega
    rw [first, List.cons_append, front_of_lead notAscii lead, bits, List.cons_append,
      extend_cons ⟨least, most⟩ (by omega), List.cons_append,
      extend_cons (by simp; omega) (by omega), extend]
    have total : (v / 4096 * 64 + v / 64 % 64) * 64 + v % 64 = v := by omega
    rw [total, character]
    rfl
  · have first : v / 262144 % 8 = v / 262144 := by omega
    obtain ⟨notAscii, lead, bits⟩ := ofLead_four (v / 262144) (by omega)
    have least : (if v / 262144 = 0 then (0x90 : UInt8) else 0x80).toNat ≤ v / 4096 % 64 + 128 := by
      split
      · have second : 16 ≤ v / 4096 % 64 := by omega
        simpa using second
      · simp
    have most : v / 4096 % 64 + 128 ≤ (if v / 262144 = 4 then (0x8F : UInt8) else 0xBF).toNat := by
      split <;> simp <;> omega
    rw [first, List.cons_append, front_of_lead notAscii lead, bits, List.cons_append,
      extend_cons ⟨least, most⟩ (by omega), List.cons_append,
      extend_cons (by simp; omega) (by omega), List.cons_append,
      extend_cons (by simp; omega) (by omega), extend]
    have total : ((v / 262144 * 64 + v / 4096 % 64) * 64 + v / 64 % 64) * 64 + v % 64 = v := by omega
    rw [total, character]
    rfl

/-- The first bytes of two, of three and of four. -/
theorem ofLead_cases {s : Shape} (lead : Shape.ofLead b = some s) :
    (∃ k < 32, 2 ≤ k ∧ b = UInt8.ofNat (k + 192)) ∨ (∃ k < 16, b = UInt8.ofNat (k + 224)) ∨
      ∃ k < 5, b = UInt8.ofNat (k + 240) := by
  have number : ∀ m k, b.toNat = k + m → b = UInt8.ofNat (k + m) := by
    intro m k same
    rw [← same, UInt8.ofNat_toNat]
  unfold Shape.ofLead at lead
  simp only [UInt8.lt_iff_toNat_lt, UInt8.le_iff_toNat_le, ← UInt8.toNat_inj] at lead
  repeat' split at lead
  all_goals cases lead
  all_goals simp only [UInt8.reduceToNat] at *
  · exact .inl ⟨b.toNat - 192, by omega, by omega, number 192 _ (by omega)⟩
  · exact .inr (.inl ⟨b.toNat - 224, by omega, number 224 _ (by omega)⟩)
  · exact .inr (.inl ⟨b.toNat - 224, by omega, number 224 _ (by omega)⟩)
  · exact .inr (.inl ⟨b.toNat - 224, by omega, number 224 _ (by omega)⟩)
  · exact .inr (.inr ⟨b.toNat - 240, by omega, number 240 _ (by omega)⟩)
  · exact .inr (.inr ⟨b.toNat - 240, by omega, number 240 _ (by omega)⟩)
  · exact .inr (.inr ⟨b.toNat - 240, by omega, number 240 _ (by omega)⟩)

/-- A byte that goes on is one with six bits. -/
theorem eq_ofNat_of_inside {x : UInt8} (least : 128 ≤ x.toNat) (most : x.toNat ≤ 191) :
    x = UInt8.ofNat (x.toNat % 64 + 128) := by
  have same : x.toNat % 64 + 128 = x.toNat := by omega
  rw [same, UInt8.ofNat_toNat]

theorem encode_ofNat {v : Nat} (valid : v.isValidChar) :
    String.utf8EncodeChar (Char.ofNat v) =
      if v ≤ 127 then [UInt8.ofNat v]
      else if v ≤ 2047 then [UInt8.ofNat (v / 64 % 32 + 192), UInt8.ofNat (v % 64 + 128)]
      else if v ≤ 65535 then [UInt8.ofNat (v / 4096 % 16 + 224), UInt8.ofNat (v / 64 % 64 + 128),
        UInt8.ofNat (v % 64 + 128)]
      else [UInt8.ofNat (v / 262144 % 8 + 240), UInt8.ofNat (v / 4096 % 64 + 128),
        UInt8.ofNat (v / 64 % 64 + 128), UInt8.ofNat (v % 64 + 128)] := by
  rw [String.utf8EncodeChar.eq_1, toNat_ofNat_of_valid valid]

section Widths

variable {x y z : UInt8}

theorem encode_two (lt : k < 32) (le : 2 ≤ k) (hx : 128 ≤ x.toNat ∧ x.toNat ≤ 191) :
    String.utf8EncodeChar (Char.ofNat (k * 64 + x.toNat % 64)) = [UInt8.ofNat (k + 192), x] := by
  generalize total : k * 64 + x.toNat % 64 = v
  have first : v / 64 % 32 = k := by omega
  have second : v % 64 = x.toNat % 64 := by omega
  rw [encode_ofNat (.inl (by omega)), if_neg (by omega), if_pos (by omega), first, second,
    ← eq_ofNat_of_inside hx.1 hx.2]

theorem encode_three (lt : k < 16) (hx : 128 ≤ x.toNat ∧ x.toNat ≤ 191)
    (hy : 128 ≤ y.toNat ∧ y.toNat ≤ 191) (notShort : k = 0 → 160 ≤ x.toNat)
    (notSurrogate : k = 13 → x.toNat ≤ 159) :
    String.utf8EncodeChar (Char.ofNat ((k * 64 + x.toNat % 64) * 64 + y.toNat % 64)) =
      [UInt8.ofNat (k + 224), x, y] := by
  generalize total : (k * 64 + x.toNat % 64) * 64 + y.toNat % 64 = v
  have valid : v.isValidChar := by
    rcases Nat.lt_or_ge v 55296 with below | above
    · exact .inl below
    · exact .inr ⟨by omega, by omega⟩
  have first : v / 4096 % 16 = k := by omega
  have second : v / 64 % 64 = x.toNat % 64 := by omega
  have third : v % 64 = y.toNat % 64 := by omega
  rw [encode_ofNat valid, if_neg (by omega), if_neg (by omega), if_pos (by omega), first, second,
    third, ← eq_ofNat_of_inside hx.1 hx.2, ← eq_ofNat_of_inside hy.1 hy.2]

theorem encode_four (lt : k < 5) (hx : 128 ≤ x.toNat ∧ x.toNat ≤ 191)
    (hy : 128 ≤ y.toNat ∧ y.toNat ≤ 191) (hz : 128 ≤ z.toNat ∧ z.toNat ≤ 191)
    (notShort : k = 0 → 144 ≤ x.toNat) (notLong : k = 4 → x.toNat ≤ 143) :
    String.utf8EncodeChar
        (Char.ofNat (((k * 64 + x.toNat % 64) * 64 + y.toNat % 64) * 64 + z.toNat % 64)) =
      [UInt8.ofNat (k + 240), x, y, z] := by
  generalize total : ((k * 64 + x.toNat % 64) * 64 + y.toNat % 64) * 64 + z.toNat % 64 = v
  have first : v / 262144 % 8 = k := by omega
  have second : v / 4096 % 64 = x.toNat % 64 := by omega
  have third : v / 64 % 64 = y.toNat % 64 := by omega
  have fourth : v % 64 = z.toNat % 64 := by omega
  rw [encode_ofNat (.inr ⟨by omega, by omega⟩), if_neg (by omega), if_neg (by omega),
    if_neg (by omega), first, second, third, fourth, ← eq_ofNat_of_inside hx.1 hx.2,
    ← eq_ofNat_of_inside hy.1 hy.2, ← eq_ofNat_of_inside hz.1 hz.2]

/-- The bounds on a second byte, which depend on the first. -/
theorem second_inside {l h : Nat} {low high : UInt8}
    (least : (if k = l then low else 0x80).toNat ≤ x.toNat)
    (most : x.toNat ≤ (if k = h then high else 0xBF).toNat) (hlow : 128 ≤ low.toNat)
    (hhigh : high.toNat ≤ 191) : (128 ≤ x.toNat ∧ x.toNat ≤ 191) ∧
      (k = l → low.toNat ≤ x.toNat) ∧ (k = h → x.toNat ≤ high.toNat) := by
  refine ⟨⟨?_, ?_⟩, ?_, ?_⟩
  · split at least
    · exact Nat.le_trans hlow least
    · exact least
  · split at most
    · exact Nat.le_trans most hhigh
    · exact most
  · intro same
    rwa [if_pos same] at least
  · intro same
    rwa [if_pos same] at most

theorem exists_encode_two (lt : k < 32) (le : 2 ≤ k)
    (whole : extend width k 1 0x80 0xBF bytes = .whole c n) :
    ∃ rest, UInt8.ofNat (k + 192) :: bytes = String.utf8EncodeChar c ++ rest := by
  obtain ⟨x, rest, rfl, least, most, whole⟩ := extend_succ_eq_whole whole
  cases whole
  refine ⟨rest, ?_⟩
  rw [encode_two lt le ⟨least, most⟩]
  rfl

theorem exists_encode_three (lt : k < 16)
    (whole : extend width k 2 (if k = 0 then 0xA0 else 0x80) (if k = 13 then 0x9F else 0xBF) bytes =
      .whole c n) : ∃ rest, UInt8.ofNat (k + 224) :: bytes = String.utf8EncodeChar c ++ rest := by
  obtain ⟨x, _, rfl, least, most, whole⟩ := extend_succ_eq_whole whole
  obtain ⟨y, rest, rfl, least', most', whole⟩ := extend_succ_eq_whole whole
  cases whole
  obtain ⟨hx, notShort, notSurrogate⟩ := second_inside least most (by decide) (by decide)
  refine ⟨rest, ?_⟩
  rw [encode_three lt hx ⟨least', most'⟩ notShort notSurrogate]
  rfl

theorem exists_encode_four (lt : k < 5)
    (whole : extend width k 3 (if k = 0 then 0x90 else 0x80) (if k = 4 then 0x8F else 0xBF) bytes =
      .whole c n) : ∃ rest, UInt8.ofNat (k + 240) :: bytes = String.utf8EncodeChar c ++ rest := by
  obtain ⟨x, _, rfl, least, most, whole⟩ := extend_succ_eq_whole whole
  obtain ⟨y, _, rfl, least', most', whole⟩ := extend_succ_eq_whole whole
  obtain ⟨z, rest, rfl, least'', most'', whole⟩ := extend_succ_eq_whole whole
  cases whole
  obtain ⟨hx, notShort, notLong⟩ := second_inside least most (by decide) (by decide)
  refine ⟨rest, ?_⟩
  rw [encode_four lt hx ⟨least', most'⟩ ⟨least'', most''⟩ notShort notLong]
  rfl

end Widths

/-- A whole character at the front is there with its encoding. -/
theorem encode_of_front_whole (whole : front bytes = .whole c n) :
    ∃ rest, bytes = String.utf8EncodeChar c ++ rest := by
  rcases bytes with _ | ⟨b, rest⟩
  · cases whole
  by_cases ascii : b < 0x80
  · rw [front, if_pos ascii] at whole
    cases whole
    have small : b.toNat < 128 := UInt8.lt_iff_toNat_lt.mp ascii
    refine ⟨rest, ?_⟩
    rw [encode_ofNat (.inl (by omega)), if_pos (by omega), UInt8.ofNat_toNat]
    rfl
  cases lead : Shape.ofLead b with
  | none =>
      rw [front, if_neg ascii, lead] at whole
      cases whole
  | some s =>
      rw [front_of_lead ascii lead] at whole
      rcases ofLead_cases lead with ⟨k, lt, le, rfl⟩ | ⟨k, lt, rfl⟩ | ⟨k, lt, rfl⟩
      · obtain ⟨_, announced, bits⟩ := ofLead_two k lt le
        cases lead.symm.trans announced
        rw [bits] at whole
        exact exists_encode_two lt le whole
      · obtain ⟨_, announced, bits⟩ := ofLead_three k lt
        cases lead.symm.trans announced
        rw [bits] at whole
        exact exists_encode_three lt whole
      · obtain ⟨_, announced, bits⟩ := ofLead_four k lt
        cases lead.symm.trans announced
        rw [bits] at whole
        exact exists_encode_four lt whole

theorem front_eq_whole_iff : front bytes = .whole c n ↔
    String.utf8EncodeChar c <+: bytes ∧ n = (String.utf8EncodeChar c).length := by
  constructor
  · intro whole
    obtain ⟨rest, rfl⟩ := encode_of_front_whole whole
    rw [front_encode] at whole
    cases whole
    exact ⟨List.prefix_append _ _, rfl⟩
  · rintro ⟨⟨rest, rfl⟩, rfl⟩
    exact front_encode c rest

end TapeLang.Utf8
