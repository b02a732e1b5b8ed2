import Mathlib.Data.List.DropRight
import Mathlib.Logic.Function.Iterate
import TapeLang.Proofs.Encoding
import TapeLang.Proofs.Scanning

/-! # Where tokens stand

The place of a byte is told by the bytes before it: its line by their newlines, its
column by the characters behind the last newline. Reading a source from the left
keeps track of just that, so every token carries the place of its byte. Scanning
gives the tokens one by one, and then the end for ever.
-/

namespace TapeLang

namespace Utf8

/-- The character whose encoding stands at the front. -/
def character? (bytes : Bytes) : Option Char :=
  bytes.toByteArray.utf8DecodeChar? 0

/-- The number of characters. A byte that no character starts with is one of its own. -/
def characters : Bytes → Nat
  | [] => 0
  | b :: rest =>
    match character? (b :: rest) with
    | some c => characters (rest.drop (c.utf8Size - 1)) + 1
    | none => characters rest + 1
termination_by bytes => bytes.length
decreasing_by
  · rw [List.length_drop, List.length_cons]
    omega
  · exact Nat.lt_succ_self _

variable {bytes rest : Bytes} {b : UInt8} {c : Char}

theorem character?_eq_some_iff : character? bytes = some c ↔ String.utf8EncodeChar c <+: bytes := by
  constructor
  · intro found
    have split := congrArg (·.data.toList) (ByteArray.eq_of_utf8DecodeChar?_eq_some found)
    simp only [ByteArray.data_append, Array.toList_append, List.toList_data_toByteArray] at split
    exact ⟨_, split.symm⟩
  · rintro ⟨rest, rfl⟩
    rw [character?, List.toByteArray_append, ← List.utf8Encode_singleton]
    exact List.utf8DecodeChar?_utf8Encode_singleton_append

theorem characters_encode (c : Char) (rest : Bytes) :
    characters (String.utf8EncodeChar c ++ rest) = characters rest + 1 := by
  have found : character? (String.utf8EncodeChar c ++ rest) = some c :=
    character?_eq_some_iff.mpr (List.prefix_append ..)
  have size := String.length_utf8EncodeChar c
  cases encoded : String.utf8EncodeChar c with
  | nil =>
      rw [encoded] at size
      exact absurd size.symm (Nat.ne_of_gt c.utf8Size_pos)
  | cons b tail =>
      rw [encoded] at found size
      rw [List.cons_append] at found ⊢
      rw [characters, found]
      have left : c.utf8Size - 1 = tail.length := by
        rw [← size, List.length_cons, Nat.add_sub_cancel]
      simp only [left, List.drop_left]

theorem characters_stray (stray : ∀ c, ¬ String.utf8EncodeChar c <+: b :: rest) :
    characters (b :: rest) = characters rest + 1 := by
  have none : character? (b :: rest) = none :=
    Option.eq_none_iff_forall_ne_some.mpr fun c found => stray c (character?_eq_some_iff.mp found)
  rw [characters, none]

/-- A character is one ASCII byte, or several bytes none of which is ASCII. -/
theorem encode_cases (c : Char) :
    (∃ b < 0x80, c = Char.ofNat b.toNat ∧ String.utf8EncodeChar c = [b]) ∨
      (∃ v, c = Char.ofNat v ∧ 128 ≤ v) ∧ ∀ b ∈ String.utf8EncodeChar c, 0x80 ≤ b := by
  have whole := front_encode c []
  rw [List.append_nil] at whole
  cases encoded : String.utf8EncodeChar c with
  | nil =>
      rw [encoded] at whole
      cases whole
  | cons b tail =>
      rw [encoded] at whole
      rcases front_whole whole with ⟨ascii, same, one⟩ | ⟨high, beyond, more, length, _, others⟩
      · cases tail with
        | nil => exact .inl ⟨b, ascii, same, rfl⟩
        | cons _ _ => cases one
      · refine .inr ⟨beyond, ?_⟩
        rw [List.length_cons, Nat.add_right_cancel_iff] at length
        rw [← length, List.take_length] at others
        exact List.forall_mem_cons.mpr ⟨UInt8.not_lt.mp high, others⟩

theorem newline_notMem_encode (other : c ≠ '\n') : 10 ∉ String.utf8EncodeChar c := by
  intro member
  rcases encode_cases c with ⟨b, _, same, encoded⟩ | ⟨_, high⟩
  · rw [encoded, List.mem_singleton] at member
    subst member
    exact other same
  · exact absurd (high 10 member) (by decide)

end Utf8

/-- The symbol of a byte. -/
def Symbol.ofByte? (b : UInt8) : Option Symbol :=
  all.find? (·.byte = b)

namespace Bytes

/-- What stands behind the last newline. -/
def lastLine (text : Bytes) : Bytes :=
  text.rtakeWhile (· ≠ 10)

/-- The place of the byte with the given index. -/
def place (source : Bytes) (i : Nat) : Position where
  line := (source.take i).count 10 + 1
  column := Utf8.characters (lastLine (source.take i)) + 1
  offset := i

/-- The tokens of bytes whose first has index `k`. -/
def tokensAt (place : Nat → Position) (k : Nat) (bytes : Bytes) : List Token :=
  (bytes.zipIdx k).filterMap fun (b, i) => (Symbol.ofByte? b).map (⟨·, place i⟩)

/-- The tokens of a source: one for each command byte, at its place. -/
def tokens (source : Bytes) : List Token :=
  tokensAt source.place 0 source

theorem lastLine_append {text more : Bytes} (same : 10 ∉ more) :
    lastLine (text ++ more) = lastLine text ++ more := by
  have kept : ∀ b ∈ more.reverse, decide (b ≠ 10) = true := by
    intro b member
    exact decide_eq_true (ne_of_mem_of_not_mem (List.mem_reverse.mp member) same)
  simp only [lastLine, List.rtakeWhile, List.reverse_append]
  rw [List.takeWhile_append_of_pos kept]
  simp

theorem lastLine_newline (text : Bytes) : lastLine (text ++ [10]) = [] := by
  simp [lastLine]

end Bytes

namespace Symbol

theorem ofByte?_eq_some_iff {b : UInt8} {s : Symbol} : ofByte? b = some s ↔ s.byte = b := by
  constructor
  · intro found
    have same := List.find?_some found
    exact of_decide_eq_true same
  · rintro rfl
    cases s <;> decide

theorem ofByte?_ascii : ∀ n < 128, ofByte? (UInt8.ofNat n) = ofChar? (Char.ofNat n) := by
  decide

theorem ofByte?_of_high {b : UInt8} (high : 0x80 ≤ b) : ofByte? b = none := by
  have ascii : ∀ s ∈ all, s.byte < 0x80 := by decide
  rw [ofByte?, List.find?_eq_none]
  intro s member same
  have low := ascii s member
  rw [of_decide_eq_true same] at low
  exact absurd low (UInt8.not_lt.mpr high)

end Symbol

namespace Bytes

variable {place : Nat → Position} {k : Nat} {bytes : Bytes}

@[simp] theorem tokensAt_nil : tokensAt place k [] = [] := rfl

theorem tokensAt_append (first second : Bytes) : tokensAt place k (first ++ second) =
    tokensAt place k first ++ tokensAt place (k + first.length) second := by
  rw [tokensAt, List.zipIdx_append, List.filterMap_append]
  rfl

theorem tokensAt_cons (b : UInt8) : tokensAt place k (b :: bytes) =
    ((Symbol.ofByte? b).map (⟨·, place k⟩)).toList ++ tokensAt place (k + 1) bytes := by
  simp only [tokensAt, List.zipIdx_cons, List.filterMap_cons]
  cases Symbol.ofByte? b <;> rfl

theorem tokensAt_of_high (high : ∀ b ∈ bytes, 0x80 ≤ b) : tokensAt place k bytes = [] := by
  induction bytes generalizing k with
  | nil => rfl
  | cons b bytes ih =>
      rw [List.forall_mem_cons] at high
      rw [tokensAt_cons, Symbol.ofByte?_of_high high.1, ih high.2]
      rfl

/-- A character makes the token of its only byte, or none. -/
theorem tokensAt_encode (c : Char) : tokensAt place k (String.utf8EncodeChar c) =
    ((Symbol.ofChar? c).map (⟨·, place k⟩)).toList := by
  rcases Utf8.encode_cases c with ⟨b, ascii, same, encoded⟩ | ⟨⟨v, same, beyond⟩, high⟩
  · have symbol := Symbol.ofByte?_ascii b.toNat (UInt8.lt_iff_toNat_lt.mp ascii)
    rw [UInt8.ofNat_toNat, ← same] at symbol
    rw [encoded, tokensAt_cons, symbol, tokensAt_nil, List.append_nil]
  · rw [tokensAt_of_high high, same, Symbol.ofChar?_of_high beyond]
    rfl

end Bytes

/-! ## Keeping track -/

/-- The bytes before have been read, and those after have not. -/
structure Track.At (t : Track) (before after : Bytes) : Prop where
  line : t.line = before.count 10 + 1
  -- counted from the left, so with whatever the count may go on with
  column : ∀ more, more <+: after →
    Utf8.characters (before.lastLine ++ more) = t.column + Utf8.characters more
  consumed : t.consumed = before.length

namespace Track

variable {t : Track} {before after : Bytes} {c : Char} {b : UInt8}

theorem at_start (after : Bytes) : At {} [] after :=
  ⟨rfl, fun more _ => (Nat.zero_add (Utf8.characters more)).symm, rfl⟩

theorem position_advance (other : c ≠ '\n') (width : Nat) :
    (t.advance c width).position = ⟨t.line, t.column + 1, t.consumed⟩ := by
  rw [advance, if_neg other]
  simp [position]

theorem At.position_advance (stands : t.At before after) (other : c ≠ '\n') (width : Nat) :
    (t.advance c width).position = (before ++ after).place before.length := by
  have column := stands.column [] (List.nil_prefix ..)
  rw [List.append_nil, Utf8.characters, Nat.add_zero] at column
  rw [Track.position_advance other, stands.line, stands.consumed, Bytes.place, List.take_left, column]

theorem At.advance_newline (stands : t.At before (10 :: after)) :
    (t.advance '\n' 1).At (before ++ [10]) after := by
  refine ⟨?_, ?_, ?_⟩
  · simp [advance, stands.line]
  · intro more _
    rw [Bytes.lastLine_newline]
    simp [advance]
  · simp [advance, stands.consumed]

/-- Bytes that count for one character are read as one. -/
theorem At.advance_piece {piece : Bytes} (stands : t.At before (piece ++ after))
    (other : c ≠ '\n') (sameLine : 10 ∉ piece)
    (one : ∀ more, more <+: after →
      Utf8.characters (piece ++ more) = Utf8.characters more + 1) :
    (t.advance c piece.length).At (before ++ piece) after := by
  rw [advance, if_neg other]
  refine ⟨?_, ?_, ?_⟩
  · simp [stands.line, List.count_eq_zero_of_not_mem sameLine]
  · intro more later
    rw [Bytes.lastLine_append sameLine, List.append_assoc,
      stands.column _ ((List.prefix_append_right_inj piece).mpr later), one more later]
    dsimp only
    omega
  · simp [stands.consumed]

theorem At.advance_encode (stands : t.At before (String.utf8EncodeChar c ++ after)) :
    (t.advance c (String.utf8EncodeChar c).length).At (before ++ String.utf8EncodeChar c) after := by
  by_cases newline : c = '\n'
  · subst newline
    exact stands.advance_newline
  · exact stands.advance_piece newline (Utf8.newline_notMem_encode newline)
      fun more _ => Utf8.characters_encode c more

theorem At.advance_stray (stands : t.At before (b :: after))
    (stray : ∀ c, ¬ String.utf8EncodeChar c <+: b :: after) (high : 0x80 ≤ b) :
    (t.advance Glyph.replacement 1).At (before ++ [b]) after := by
  have sameLine : 10 ∉ [b] := by
    rw [List.mem_singleton]
    rintro rfl
    exact absurd high (by decide)
  have stands : t.At before ([b] ++ after) := stands
  refine stands.advance_piece (by decide) sameLine ?_
  intro more later
  apply Utf8.characters_stray
  intro c found
  exact stray c (found.trans (List.cons_prefix_cons.mpr ⟨rfl, later⟩))

end Track

namespace Glyph

variable {t : Track} {before after : Bytes}

/-- What is decoded: the character at the front, or a byte that none starts with. -/
theorem decode_cases (t : Track) (b : UInt8) (rest : Bytes) :
    (∃ c after reports, b :: rest = String.utf8EncodeChar c ++ after ∧
      decode t [] b rest =
        (⟨some c, String.utf8EncodeChar c,
          (t.advance c (String.utf8EncodeChar c).length).position, reports⟩,
          t.advance c (String.utf8EncodeChar c).length, after)) ∨
    (0x80 ≤ b ∧ (∀ c, ¬ String.utf8EncodeChar c <+: b :: rest) ∧ ∃ reports,
      decode t [] b rest =
        (⟨some replacement, [b], (t.advance replacement 1).position, reports⟩,
          t.advance replacement 1, rest)) := by
  have stray : (∀ c n, Utf8.front (b :: rest) ≠ .whole c n) →
      0x80 ≤ b ∧ ∀ c, ¬ String.utf8EncodeChar c <+: b :: rest := by
    intro none
    refine ⟨Utf8.high_of_front rest fun c => none c 1, ?_⟩
    intro c found
    exact none c _ (Utf8.front_eq_whole_iff.mpr ⟨found, rfl⟩)
  unfold decode
  cases front : Utf8.front (b :: rest) with
  | whole c n =>
      obtain ⟨⟨after, split⟩, rfl⟩ := Utf8.front_eq_whole_iff.mp front
      have raw : (b :: rest).take (String.utf8EncodeChar c).length = String.utf8EncodeChar c := by
        rw [← split, List.take_left]
      have left : rest.drop ((String.utf8EncodeChar c).length - 1) = after := by
        have pos : 0 < (String.utf8EncodeChar c).length := by
          rw [String.length_utf8EncodeChar]
          exact c.utf8Size_pos
        rw [← List.drop_cons pos, ← split, List.drop_left]
      simp only [raw, left]
      exact .inl ⟨c, after, _, split.symm, rfl⟩
  | malformed | incomplete =>
      obtain ⟨high, stray⟩ := stray (by simp [front])
      exact .inr ⟨high, stray, _, rfl⟩

theorem ofGlyphs_cons (g : Glyph) (gs : List Glyph) :
    Token.ofGlyphs (g :: gs) = (Token.ofGlyph? g).toList ++ Token.ofGlyphs gs := by
  simp only [Token.ofGlyphs, List.filterMap_cons]
  cases Token.ofGlyph? g <;> rfl

/-- A command is found where its byte stands. -/
theorem ofGlyph?_advance (stands : t.At before after) (c : Char) (raw : Bytes) (width : Nat)
    (reports : List Report) :
    Token.ofGlyph? ⟨some c, raw, (t.advance c width).position, reports⟩ =
      (Symbol.ofChar? c).map (⟨·, (before ++ after).place before.length⟩) := by
  simp only [Token.ofGlyph?, Option.bind_some]
  cases symbol : Symbol.ofChar? c with
  | none => rfl
  | some s =>
      have other : c ≠ '\n' := by
        rintro rfl
        cases symbol
      rw [stands.position_advance other]
      rfl

theorem ofGlyphs_spell (stands : t.At before after) : Token.ofGlyphs (spell t after) =
    Bytes.tokensAt (before ++ after).place before.length after := by
  fun_induction spell t after generalizing before with
  | case1 t => rfl
  | case2 t b rest ih =>
      rcases decode_cases t b rest with
        ⟨c, after, reports, split, decoded⟩ | ⟨high, stray, reports, decoded⟩
      · rw [decoded] at ih ⊢
        rw [split] at stands ⊢
        rw [ofGlyphs_cons, ofGlyph?_advance stands, ih stands.advance_encode, List.append_assoc,
          List.length_append, Bytes.tokensAt_append, Bytes.tokensAt_encode]
      · rw [decoded] at ih ⊢
        rw [ofGlyphs_cons, ofGlyph?_advance stands, ih (stands.advance_stray stray high),
          List.append_assoc, List.length_append, Bytes.tokensAt_cons, Symbol.ofByte?_of_high high]
        rfl

theorem ofGlyphs_ofChunks {chunks : List Chunk} {bytes : Bytes} (delivers : Delivers chunks bytes) :
    Token.ofGlyphs (ofChunks chunks) = bytes.tokens := by
  rw [ofChunks_eq_spell delivers]
  exact ofGlyphs_spell (Track.at_start bytes)

theorem readFailure?_ofChunks {chunks : List Chunk} {bytes : Bytes}
    (delivers : Delivers chunks bytes) : readFailure? (ofChunks chunks) = none := by
  rw [ofChunks_eq_spell delivers]
  exact readFailure?_spell {} bytes

end Glyph

theorem Bytes.map_byte_tokens (bytes : Bytes) :
    bytes.tokens.map (·.symbol.byte) = bytes.commands := by
  have spelled := Glyph.bytes_ofGlyphs_spell {} bytes
  rwa [Glyph.ofGlyphs_spell (Track.at_start bytes)] at spelled

/-! ## One token at a time -/

/-- What a scan finds. -/
inductive Scanned where
  | token (t : Token)
  | ended (position : Position)
  deriving Repr, DecidableEq

namespace Glyph

/-- Scan for a token: what is found, and the glyphs left. The last glyph stays. -/
def scan : List Glyph → Scanned × List Glyph
  | [] => (.ended ⟨1, 1, 0⟩, [])
  | g :: rest =>
    match Token.ofGlyph? g, rest with
    | some t, _ => (.token t, rest)
    | none, [] => (.ended g.position, [g])
    | none, _ :: _ => scan rest

/-- What is found by the scan that follows `n` others. -/
def scanned (gs : List Glyph) (n : Nat) : Scanned :=
  (scan ((fun left => (scan left).2)^[n] gs)).1

/-- The last glyph stands for the end of the source, at this position. -/
inductive Closed (p : Position) : List Glyph → Prop where
  | last {g : Glyph} (ends : g.char = none) (here : g.position = p) : Closed p [g]
  | cons (g : Glyph) {gs : List Glyph} (later : Closed p gs) : Closed p (g :: gs)

variable {p : Position} {gs : List Glyph}

theorem Closed.endPosition_eq (closed : Closed p gs) : endPosition gs = p := by
  induction closed with
  | last _ here => exact here
  | cons g later ih =>
      cases later with
      | last _ here => exact here
      | cons _ _ => exact ih

theorem closed_spell (t : Track) (bytes : Bytes) : ∃ p, Closed p (spell t bytes) := by
  fun_induction spell t bytes with
  | case1 t => exact ⟨_, .last rfl rfl⟩
  | case2 t b rest ih =>
      obtain ⟨p, closed⟩ := ih
      exact ⟨p, .cons _ closed⟩

/-- A scan takes the first token that is left. -/
theorem Closed.scan (closed : Closed p gs) :
    (scan gs).1 = (Token.ofGlyphs gs)[0]?.elim (.ended p) .token ∧
      Token.ofGlyphs (Glyph.scan gs).2 = (Token.ofGlyphs gs).tail ∧ Closed p (Glyph.scan gs).2 := by
  induction closed with
  | @last g ends here =>
      have none : Token.ofGlyph? g = none := by simp [Token.ofGlyph?, ends]
      have tokens : Token.ofGlyphs [g] = [] := by simp [Token.ofGlyphs, none]
      have found : Glyph.scan [g] = (.ended g.position, [g]) := by simp only [Glyph.scan, none]
      rw [found, tokens, here]
      exact ⟨rfl, rfl, .last ends here⟩
  | @cons g gs later ih =>
      cases token : Token.ofGlyph? g with
      | some t =>
          have found : Glyph.scan (g :: gs) = (.token t, gs) := by simp only [Glyph.scan, token]
          rw [found, ofGlyphs_cons, token]
          exact ⟨rfl, rfl, later⟩
      | none =>
          have found : Glyph.scan (g :: gs) = Glyph.scan gs := by
            cases later <;> simp only [Glyph.scan, token]
          rw [found, ofGlyphs_cons, token]
          exact ih

/-- Scans give the tokens one by one, and then the end. -/
theorem Closed.scanned_eq (closed : Closed p gs) (n : Nat) :
    scanned gs n = (Token.ofGlyphs gs)[n]?.elim (.ended p) .token := by
  induction n generalizing gs with
  | zero => exact closed.scan.1
  | succ n ih =>
      obtain ⟨_, left, closed⟩ := closed.scan
      rw [← List.getElem?_tail, ← left]
      exact ih closed

theorem scanned_ofChunks {chunks : List Chunk} {bytes : Bytes} (delivers : Delivers chunks bytes)
    (n : Nat) : scanned (ofChunks chunks) n =
      bytes.tokens[n]?.elim (.ended (endPosition (ofChunks chunks))) .token := by
  obtain ⟨p, closed⟩ := closed_spell {} bytes
  rw [← ofChunks_eq_spell delivers] at closed
  rw [closed.scanned_eq, closed.endPosition_eq, ofGlyphs_ofChunks delivers]

end Glyph

end TapeLang
