import TapeLang.Block.Token
import TapeLang.Proofs.Delivery

/-! # Tokens are the command bytes of a source

Every command is one ASCII byte, and the bytes of any other character are not
ASCII, so scanning finds a command wherever its byte stands. Bytes that belong to
no character are reported, but not as a failure.
-/

namespace TapeLang

/-- The bytes of a source that mean something, in order. -/
def Bytes.commands (bytes : Bytes) : Bytes :=
  bytes.filter (· ∈ Bytes.ofString "><+-.,[]")

namespace Bytes

theorem commands_append (a b : Bytes) : (a ++ b).commands = a.commands ++ b.commands :=
  List.filter_append ..

theorem commands_of_high {bytes : Bytes} (high : ∀ b ∈ bytes, 0x80 ≤ b) : bytes.commands = [] := by
  have ascii : (ofString "><+-.,[]").all (· < 0x80) = true := rfl
  rw [commands, List.filter_eq_nil_iff]
  intro b member isCommand
  have low := List.all_eq_true.mp ascii b (of_decide_eq_true isCommand)
  exact absurd (of_decide_eq_true low) (UInt8.not_lt.mpr (high b member))

end Bytes

namespace Symbol

/-- The byte of a symbol. -/
def byte (s : Symbol) : UInt8 :=
  Bytes.ofChar s.char

theorem bytes_ofChar?_ascii : ∀ n < 128,
    ((ofChar? (Char.ofNat n)).toList.map byte) = Bytes.commands [UInt8.ofNat n] := by
  decide

theorem ofChar?_of_high {v : Nat} (high : 128 ≤ v) : ofChar? (Char.ofNat v) = none := by
  have ascii : ∀ s ∈ all, 0 < s.char.toNat ∧ s.char.toNat < 128 := by decide
  rw [ofChar?, List.find?_eq_none]
  intro s member same
  have same : s.char = Char.ofNat v := of_decide_eq_true same
  obtain ⟨pos, lt⟩ := ascii s member
  rw [same] at pos lt
  -- a number that is no character gives NUL, which is no symbol either
  by_cases valid : v.isValidChar
  · have value : (Char.ofNat v).toNat = v := by
      rw [Char.ofNat, dif_pos valid]
      rfl
    omega
  · have value : (Char.ofNat v).toNat = 0 := by
      rw [Char.ofNat, dif_neg valid]
      rfl
    omega

end Symbol

namespace Glyph

variable {t : Track} {b : UInt8} {rest bytes : Bytes}

theorem bytes_ofGlyph? (g : Glyph) : (Token.ofGlyph? g).toList.map (·.symbol.byte) =
    (g.char.bind Symbol.ofChar?).toList.map Symbol.byte := by
  unfold Token.ofGlyph?
  split <;> simp [*]

/-- A glyph takes its bytes from the front, and is a token if they hold a command. -/
theorem decode_bytes (t : Track) (b : UInt8) (rest : Bytes) :
    (decode t [] b rest).1.raw ++ (decode t [] b rest).2.2 = b :: rest ∧
    (Token.ofGlyph? (decode t [] b rest).1).toList.map (·.symbol.byte) =
      (decode t [] b rest).1.raw.commands := by
  have skipped : ∀ {g : Glyph} {c : Char}, g.char = some c → Symbol.ofChar? c = none →
      (∀ x ∈ g.raw, 0x80 ≤ x) →
      (Token.ofGlyph? g).toList.map (·.symbol.byte) = g.raw.commands := by
    intro g c char comment high
    rw [bytes_ofGlyph?, char, Option.bind_some, comment, Bytes.commands_of_high high]
    rfl
  unfold decode
  cases front : Utf8.front (b :: rest) with
  | whole c width =>
      rcases Utf8.front_whole front with
        ⟨ascii, rfl, rfl⟩ | ⟨notAscii, ⟨v, rfl, le⟩, more, rfl, enough, others⟩
      · refine ⟨rfl, ?_⟩
        have same := Symbol.bytes_ofChar?_ascii b.toNat (UInt8.lt_iff_toNat_lt.mp ascii)
        rw [UInt8.ofNat_toNat] at same
        rw [bytes_ofGlyph?]
        exact same
      · refine ⟨by simp, skipped rfl (Symbol.ofChar?_of_high le) ?_⟩
        simp only [List.take_succ_cons, List.forall_mem_cons]
        exact ⟨UInt8.not_lt.mp notAscii, others⟩
  | incomplete =>
      have high : 0x80 ≤ b := Utf8.high_of_front rest (by simp [front])
      exact ⟨rfl, skipped rfl (by decide) (by simpa using high)⟩
  | malformed =>
      have high : 0x80 ≤ b := Utf8.high_of_front rest (by simp [front])
      exact ⟨rfl, skipped rfl (by decide) (by simpa using high)⟩

/-- Reports about bytes and not about a failed read. -/
def Readable (g : Glyph) : Prop :=
  ∀ r ∈ g.reports, "invalid".toList.isPrefixOf r.text.toList = true

theorem decode_readable (t : Track) (b : UInt8) (rest : Bytes) :
    (decode t [] b rest).1.Readable := by
  intro r member
  unfold decode at member
  split at member
  · dsimp only at member
    split at member
    · cases List.mem_singleton.mp member
      show "invalid".toList.isPrefixOf "invalid character NUL".toList = true
      decide
    · cases member
  · cases List.mem_singleton.mp member
    show "invalid".toList.isPrefixOf "invalid UTF-8 encoding".toList = true
    decide

theorem bytes_ofGlyphs_spell (t : Track) (bytes : Bytes) :
    (Token.ofGlyphs (spell t bytes)).map (·.symbol.byte) = bytes.commands := by
  fun_induction spell t bytes with
  | case1 t => rfl
  | case2 t b rest ih =>
      obtain ⟨split, here⟩ := decode_bytes t b rest
      rw [← split, Bytes.commands_append, ← here, ← ih]
      simp only [Token.ofGlyphs, List.filterMap_cons]
      cases Token.ofGlyph? (decode t [] b rest).1 <;> simp

theorem readFailure?_spell (t : Track) (bytes : Bytes) : readFailure? (spell t bytes) = none := by
  have readable : ∀ g ∈ spell t bytes, g.Readable := by
    fun_induction spell t bytes with
    | case1 t => simp [Readable]
    | case2 t b rest ih => simpa using ⟨decode_readable t b rest, ih⟩
  rw [readFailure?, List.findSome?_eq_none_iff]
  intro g member
  rw [Option.map_eq_none_iff, List.find?_eq_none]
  intro r reported
  rw [readable g member r reported]
  decide

end Glyph

end TapeLang
