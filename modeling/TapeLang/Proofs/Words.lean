import TapeLang.Proofs.Assembling
import TapeLang.Proofs.Delivery

/-! # Words between blanks

A source of visible ASCII words, each followed by a blank, is read as exactly those
words, however it is delivered. Comments are taken out of a sequence of words as
they are taken out of the items.
-/

namespace TapeLang

theorem Glyph.spell_ascii {b : UInt8} (notNul : b ≠ 0) (ascii : b < 0x80) (t : Track)
    (rest : Bytes) :
    ∃ position t', spell t (b :: rest) =
      ⟨some (Char.ofNat b.toNat), [b], position, []⟩ :: spell t' rest := by
  have front : Utf8.front (b :: rest) = .whole (Char.ofNat b.toNat) 1 := by
    rw [Utf8.front, if_pos ascii]
  have small : b.toNat < 128 := UInt8.lt_iff_toNat_lt.mp ascii
  have notNul : Char.ofNat b.toNat ≠ Char.ofNat 0 := by
    have faithful : ∀ n < 128, Char.ofNat n = Char.ofNat 0 → n = 0 := by decide
    intro same
    exact notNul (UInt8.toNat_inj.mp (faithful b.toNat small same))
  let t' := t.advance (Char.ofNat b.toNat) 1
  refine ⟨t'.position, t', ?_⟩
  rw [spell]
  simp only [decode, front, if_neg notNul]
  rfl

namespace Assembly

/-- The bytes that part words here. -/
def IsGap (b : UInt8) : Prop :=
  b = 9 ∨ b = 10 ∨ b = 32

/-- Visible ASCII characters. -/
structure IsWord (w : Bytes) : Prop where
  nonempty : w ≠ []
  visible : ∀ b ∈ w, 33 ≤ b ∧ b ≤ 126

/-- Words, behind each of which there is a blank. -/
inductive Spaced : Bytes → List Bytes → Prop where
  | nil : Spaced [] []
  | gap {b : UInt8} {text : Bytes} {words : List Bytes} (gap : IsGap b)
      (later : Spaced text words) : Spaced (b :: text) words
  | word {w text : Bytes} {b : UInt8} {words : List Bytes} (isWord : IsWord w) (gap : IsGap b)
      (later : Spaced text words) : Spaced (w ++ b :: text) (w :: words)

variable {b : UInt8} {w text rest : Bytes} {words : List Bytes}

theorem Spaced.append {later : List Bytes} (spaced : Spaced text words)
    (others : Spaced rest later) : Spaced (text ++ rest) (words ++ later) := by
  induction spaced with
  | nil => exact others
  | gap gap _ ih => exact .gap gap ih
  | word isWord gap _ ih =>
      rw [List.append_assoc]
      exact .word isWord gap ih

/-! ## Reading them -/

theorem IsGap.reads (gap : IsGap b) : b ≠ 0 ∧ b < 0x80 ∧
    CharClass.isBlank (Char.ofNat b.toNat) = true ∧
    CharClass.isWord (Char.ofNat b.toNat) = false := by
  rcases gap with rfl | rfl | rfl <;> decide +kernel

theorem visible_reads (visible : 33 ≤ b ∧ b ≤ 126) : b ≠ 0 ∧ b < 0x80 ∧
    CharClass.isBlank (Char.ofNat b.toNat) = false ∧
    CharClass.isWord (Char.ofNat b.toNat) = true := by
  have faithful : ∀ n < 127, (Char.ofNat n).toNat = n := by decide
  have notBlank : ∀ n < 127, 33 ≤ n → CharClass.isBlank (Char.ofNat n) = false := by decide
  have low : 33 ≤ b.toNat := UInt8.le_iff_toNat_le.mp visible.1
  have high : b.toNat ≤ 126 := UInt8.le_iff_toNat_le.mp visible.2
  refine ⟨?_, UInt8.lt_iff_toNat_lt.mpr (Nat.lt_of_le_of_lt high (by decide)),
    notBlank _ (by omega) low, ?_⟩
  · intro zero
    rw [zero] at low
    exact absurd low (by decide)
  · refine List.any_eq_true.mpr ⟨(0x21, 0x7E), List.mem_cons_self, ?_⟩
    rw [faithful _ (by omega)]
    simpa using ⟨low, high⟩

open Glyph (spell)

theorem foldl_push_gap (gap : IsGap b) (t : Track) (text : Bytes) (mode : Mode)
    (done : Array Item) :
    ∃ t', (spell t (b :: text)).foldl Scanned.push ⟨mode, done⟩ =
      (spell t' text).foldl Scanned.push ⟨.between, done ++ mode.close⟩ := by
  obtain ⟨notNul, ascii, blank, notWord⟩ := gap.reads
  obtain ⟨position, t', read⟩ := Glyph.spell_ascii notNul ascii t text
  refine ⟨t', ?_⟩
  rw [read, List.foldl_cons]
  congr 1
  cases mode with
  | between | word | stray => simp [Scanned.push, Mode.start, Mode.close, blank, notWord]

theorem foldl_push_visible (visible : ∀ b ∈ w, 33 ≤ b ∧ b ≤ 126) (t : Track) (text : Bytes)
    (position : Position) (begun : Array UInt8) (done : Array Item) :
    ∃ t', (spell t (w ++ text)).foldl Scanned.push ⟨.word position begun, done⟩ =
      (spell t' text).foldl Scanned.push ⟨.word position (begun ++ w), done⟩ := by
  induction w generalizing t begun with
  | nil => exact ⟨t, by simp⟩
  | cons b w ih =>
      obtain ⟨here, visible⟩ := List.forall_mem_cons.mp visible
      obtain ⟨notNul, ascii, _, isWord⟩ := visible_reads here
      obtain ⟨_, t', read⟩ := Glyph.spell_ascii notNul ascii t (w ++ text)
      obtain ⟨t', more⟩ := ih visible t' (begun ++ [b])
      refine ⟨t', ?_⟩
      rw [List.cons_append, read, List.foldl_cons]
      have pushed : begun ++ (b :: w) = begun ++ [b] ++ w := by simp
      rw [pushed, ← more]
      simp [Scanned.push, isWord]

theorem foldl_push_word (isWord : IsWord w) (t : Track) (text : Bytes) (done : Array Item) :
    ∃ position t', (spell t (w ++ text)).foldl Scanned.push ⟨.between, done⟩ =
      (spell t' text).foldl Scanned.push ⟨.word position w.toArray, done⟩ := by
  obtain ⟨nonempty, visible⟩ := isWord
  cases w with
  | nil => exact absurd rfl nonempty
  | cons b w =>
      obtain ⟨here, visible⟩ := List.forall_mem_cons.mp visible
      obtain ⟨notNul, ascii, notBlank, isWord⟩ := visible_reads here
      obtain ⟨position, t', read⟩ := Glyph.spell_ascii notNul ascii t (w ++ text)
      obtain ⟨t', more⟩ := foldl_push_visible visible t' text position #[b] done
      refine ⟨position, t', ?_⟩
      rw [List.cons_append, read, List.foldl_cons]
      have begun : (b :: w).toArray = #[b] ++ w := by simp
      rw [begun, ← more]
      simp [Scanned.push, Mode.start, notBlank, isWord]

/-- Words come out one after the other, and nothing is left open. -/
theorem foldl_push_spaced (spaced : Spaced text words) (t : Track) (done : Array Item) :
    ∃ items : Array Item,
      (spell t text).foldl Scanned.push ⟨.between, done⟩ = ⟨.between, done ++ items⟩ ∧
      items.toList.map Item.text? = words.map some := by
  induction spaced generalizing t done with
  | nil => exact ⟨#[], by simp [spell, Scanned.push, Mode.start], rfl⟩
  | @gap b text words gap _ ih =>
      obtain ⟨t', read⟩ := foldl_push_gap gap t text .between done
      obtain ⟨items, later, texts⟩ := ih t' done
      exact ⟨items, by simpa [read, Mode.close] using later, texts⟩
  | @word w text b words isWord gap _ ih =>
      -- the gap behind the word closes it
      obtain ⟨position, t', first⟩ := foldl_push_word isWord t (b :: text) done
      obtain ⟨t', read⟩ := foldl_push_gap gap t' text (.word position w.toArray) done
      obtain ⟨items, later, texts⟩ := ih t' (done.push (.word position w))
      refine ⟨#[.word position w] ++ items, ?_, ?_⟩
      · simp [first, read, Mode.close, later]
      · simp [Item.text?, texts]

theorem blankMark_spell (spaced : Spaced text words) (t : Track) :
    blankMark (spell t text) = spell t text := by
  have same : ∀ {b : UInt8} {rest : Bytes}, b ≠ 0 → b < 0x80 →
      blankMark (spell t (b :: rest)) = spell t (b :: rest) := by
    intro b rest notNul ascii
    obtain ⟨position, t', read⟩ := Glyph.spell_ascii notNul ascii t rest
    have notMark : ∀ n < 128, Char.ofNat n ≠ byteOrderMark := by decide
    have small : b.toNat < 128 := UInt8.lt_iff_toNat_lt.mp ascii
    simp [read, blankMark, notMark b.toNat small]
  cases spaced with
  | nil => simp [spell, blankMark]
  | gap gap _ => exact same gap.reads.1 gap.reads.2.1
  | @word w _ _ _ isWord _ _ =>
      obtain ⟨nonempty, visible⟩ := isWord
      cases w with
      | nil => exact absurd rfl nonempty
      | cons b w =>
          have reads := visible_reads (List.forall_mem_cons.mp visible).1
          exact same reads.1 reads.2.1

/-- However it is delivered, the items of a source are its words. -/
theorem items_of_spaced {chunks : List Chunk} (delivers : Delivers chunks text)
    (spaced : Spaced text words) :
    (items (Glyph.ofChunks chunks)).map Item.text? = words.map some := by
  obtain ⟨read, same, texts⟩ := foldl_push_spaced spaced {} #[]
  rw [items, Glyph.ofChunks_eq_spell delivers, blankMark_spell spaced {}, same]
  simpa [Mode.close] using texts

/-! ## Comments -/

/-- The second words are the first without comments. -/
inductive Uncommented : List Bytes → List Bytes → Prop where
  | nil : Uncommented [] []
  | word {w : Bytes} {words others : List Bytes} (plain : w ≠ Bytes.ofString "(")
      (later : Uncommented words others) : Uncommented (w :: words) (w :: others)
  | comment {inner words others : List Bytes} (within : ∀ w ∈ inner, w ≠ Bytes.ofString ")")
      (later : Uncommented words others) :
      Uncommented (Bytes.ofString "(" :: inner ++ Bytes.ofString ")" :: words) others

theorem Uncommented.append {us vs us' vs' : List Bytes} (first : Uncommented us us')
    (later : Uncommented vs vs') : Uncommented (us ++ vs) (us' ++ vs') := by
  induction first with
  | nil => exact later
  | word plain _ ih => exact .word plain ih
  | comment within _ ih =>
      rw [List.append_assoc, List.cons_append]
      exact .comment within ih

theorem Uncommented.of_plain (plain : ∀ w ∈ words, w ≠ Bytes.ofString "(") :
    Uncommented words words := by
  induction words with
  | nil => exact .nil
  | cons w words ih =>
      obtain ⟨here, plain⟩ := List.forall_mem_cons.mp plain
      exact .word here (ih plain)

/-- The items outside comments are the words that are left. -/
theorem Uncommented.outside {others : List Bytes} (uncommented : Uncommented words others)
    {items : List Item} (texts : items.map Item.text? = words.map some) :
    (Assembly.outside items).map Item.text? = others.map some := by
  induction uncommented generalizing items with
  | nil =>
      cases List.map_eq_nil_iff.mp texts
      simp [Assembly.outside]
  | word plain _ ih =>
      obtain ⟨item, items, rfl, text, texts⟩ := List.map_eq_cons_iff.mp texts
      have notOpens : ¬ item.opens = true := by simpa [Item.opens, text] using plain
      rw [Assembly.outside, if_neg notOpens]
      simp [text, ih texts]
  | @comment inner words others within _ ih =>
      rw [List.map_append, List.map_cons] at texts
      obtain ⟨front, back, rfl, starts, ends⟩ := List.map_eq_append_iff.mp texts
      obtain ⟨item, front, rfl, text, middle⟩ := List.map_eq_cons_iff.mp starts
      obtain ⟨last, back, rfl, closing, behind⟩ := List.map_eq_cons_iff.mp ends
      have opens : item.opens = true := by simpa [Item.opens] using text
      have closes : last.closes = true := by simpa [Item.closes] using closing
      have passed : ∀ item ∈ front, (!item.closes) = true := by
        intro item member
        have mapped : item.text? ∈ inner.map some := middle ▸ List.mem_map_of_mem member
        obtain ⟨w, inside, text⟩ := List.mem_map.mp mapped
        simpa [Item.closes, ← text] using within w inside
      rw [List.cons_append, Assembly.outside, if_pos opens, List.dropWhile_append_of_pos passed,
        List.dropWhile_cons_of_neg (by simp [closes])]
      exact ih behind

/-- Words that spell a program once comments are taken out make a grammatical source. -/
theorem Uncommented.grammatical {others : List Bytes} (uncommented : Uncommented words others)
    {items : List Item} (texts : items.map Item.text? = words.map some) {p : Program}
    (spelled : SpellsAll p.toList others) : Grammatical items p := by
  refine ⟨?_, others, ?_, spelled⟩
  · intro item member isProblem
    have mapped : item.text? ∈ words.map some := texts ▸ List.mem_map_of_mem member
    obtain ⟨w, _, text⟩ := List.mem_map.mp mapped
    cases item with
    | problem => cases text
    | word | stray => exact isProblem
  · have left := uncommented.outside texts
    rw [← List.forall₂_eq_eq_eq, List.forall₂_map_left_iff, List.forall₂_map_right_iff] at left
    exact left

end Assembly

end TapeLang
