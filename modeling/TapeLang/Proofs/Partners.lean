import Mathlib.Data.List.Nodup
import TapeLang.Proofs.Parsing
import TapeLang.Proofs.TokenPlaces

/-! # Brackets without partner

Two brackets are partners if what stands between them is balanced. The parser
reads from the right, and the closing brackets that wait are those without partner
in what has been read, so an opening bracket is put to the first of them. In the
end exactly the brackets without partner are complained about.
-/

namespace TapeLang

namespace Bytes

/-- The brackets with these indices belong together. -/
def Partners (source : Bytes) (i j : Nat) : Prop :=
  source[i]? = some 91 ∧ source[j]? = some 93 ∧ i < j ∧ Balanced ((source.take j).drop (i + 1))

instance (source : Bytes) (i j : Nat) : Decidable (source.Partners i j) :=
  inferInstanceAs (Decidable (_ ∧ _))

/-- The closing brackets without partner, from the left. -/
def unopened (source : Bytes) : List Nat :=
  (List.range source.length).filter fun j =>
    source[j]? = some 93 ∧ ∀ i < j, ¬ source.Partners i j

/-- The opening brackets without partner, from the left. -/
def unclosed (source : Bytes) : List Nat :=
  (List.range source.length).filter fun i =>
    source[i]? = some 91 ∧ ∀ j < source.length, ¬ source.Partners i j

/-- The text closes `k` brackets more than it opens, and no beginning of it more. -/
def Closes (k : Nat) (text : Bytes) : Prop :=
  (∀ start ∈ text.inits, start.count 93 ≤ start.count 91 + k) ∧
    text.count 93 = text.count 91 + k

variable {z : UInt8} {source text : Bytes} {i j k : Nat}

theorem closes_nil : Closes k [] ↔ k = 0 := by
  simp [Closes, eq_comm]

theorem closes_open : Closes k (91 :: text) ↔ Closes (k + 1) text := by
  simp [Closes, Nat.add_right_comm _ 1 k, Nat.add_assoc]

theorem not_closes_close : ¬ Closes 0 (93 :: text) := by
  intro closes
  have first := closes.1 [93] (by simp)
  cases first

theorem closes_close : Closes (k + 1) (93 :: text) ↔ Closes k text := by
  simp [Closes, ← Nat.add_assoc]

theorem closes_other (notOpening : z ≠ 91) (notClosing : z ≠ 93) :
    Closes k (z :: text) ↔ Closes k text := by
  simp [Closes, notOpening, notClosing]

/-! ## One byte in front -/

theorem partners_succ : Partners (z :: source) (i + 1) (j + 1) ↔ Partners source i j := by
  simp [Partners]

theorem not_partners_zero : ¬ Partners source i 0 := by
  simp [Partners]

theorem partners_front : Partners (z :: source) 0 (j + 1) ↔
    z = 91 ∧ source[j]? = some 93 ∧ Balanced (source.take j) := by
  simp [Partners]

theorem filter_range_succ (p : Nat → Bool) (n : Nat) : (List.range (n + 1)).filter p =
    (if p 0 then [0] else []) ++ ((List.range n).filter fun i => p (i + 1)).map (· + 1) := by
  rw [List.range_succ_eq_map, List.filter_cons, List.filter_map]
  split <;> rfl

theorem unopened_cons : unopened (z :: source) = (if z = 93 then [0] else []) ++
    (source.unopened.filter fun j => ¬ (z = 91 ∧ Balanced (source.take j))).map (· + 1) := by
  rw [unopened, List.length_cons, filter_range_succ, unopened, List.filter_filter]
  congr 2
  · simp
  · apply List.filter_congr
    intro j _
    simp only [List.getElem?_cons_succ, Nat.forall_lt_succ_left, partners_succ, partners_front]
    rw [← Bool.decide_and, decide_eq_decide]
    tauto

theorem unclosed_cons : unclosed (z :: source) =
    (if z = 91 ∧ ∀ j < source.length, source[j]? = some 93 → ¬ Balanced (source.take j)
      then [0] else []) ++ source.unclosed.map (· + 1) := by
  rw [unclosed, List.length_cons, filter_range_succ, unclosed]
  congr 2
  · by_cases opening : z = 91
    · simp only [opening, List.getElem?_cons_zero, Nat.forall_lt_succ_left, partners_front,
        not_partners_zero, not_false_eq_true, true_and, decide_eq_true_eq, not_and]
    · simp [opening]
  · apply List.filter_congr
    intro j _
    simp only [List.getElem?_cons_succ, Nat.forall_lt_succ_left, partners_succ, not_partners_zero,
      not_false_eq_true, true_and]

theorem unopened_close : unopened (93 :: source) = 0 :: source.unopened.map (· + 1) := by
  simp [unopened_cons]

theorem unopened_other (notOpening : z ≠ 91) (notClosing : z ≠ 93) :
    unopened (z :: source) = source.unopened.map (· + 1) := by
  simp [unopened_cons, notOpening, notClosing]

theorem unclosed_not_open (notOpening : z ≠ 91) :
    unclosed (z :: source) = source.unclosed.map (· + 1) := by
  simp [unclosed_cons, notOpening]

/-! ## The first that waits -/

theorem closing_of_mem_unopened (member : j ∈ source.unopened) : source[j]? = some 93 := by
  have waits := (List.mem_filter.mp member).2
  exact (of_decide_eq_true waits).1

/-- An opening bracket takes the first closing bracket that has no partner yet. -/
theorem unopened_open_of
    (first : ∀ j, source[j]? = some 93 →
      (Closes 0 (source.take j) ↔ source.unopened[0]? = some j)) :
    unopened (91 :: source) = source.unopened.tail.map (· + 1) := by
  have distinct : source.unopened.Nodup := List.nodup_range.filter _
  have balanced : ∀ j ∈ source.unopened,
      (Balanced (source.take j) ↔ source.unopened[0]? = some j) := by
    intro j member
    exact first j (closing_of_mem_unopened member)
  rw [unopened_cons]
  generalize source.unopened = waiting at distinct balanced
  cases waiting with
  | nil => rfl
  | cons h waiting =>
      have taken : Balanced (source.take h) := (balanced h (by simp)).mpr rfl
      have left : ∀ j ∈ waiting, ¬ Balanced (source.take j) := by
        intro j member here
        cases (balanced j (by simp [member])).mp here
        exact (List.nodup_cons.mp distinct).1 member
      rw [List.filter_cons_of_neg (by simpa using taken),
        List.filter_eq_self.mpr (by simpa using left)]
      rfl

/-- A closing bracket has `k` others without partner before it, and none itself, if
    it ends what closes `k` brackets. -/
theorem closes_iff (closing : source[j]? = some 93) :
    Closes k (source.take j) ↔ source.unopened[k]? = some j := by
  induction source generalizing j k with
  | nil => cases closing
  | cons z source ih =>
      by_cases opens : z = 91
      · subst opens
        cases j with
        | zero => cases closing
        | succ j =>
            rw [List.take_succ_cons, closes_open, ih closing,
              unopened_open_of fun j here => ih here]
            simp
      by_cases closes : z = 93
      · subst closes
        rw [unopened_close]
        cases j with
        | zero => cases k <;> simp [closes_nil]
        | succ j =>
            rw [List.take_succ_cons]
            cases k with
            | zero => simp [not_closes_close]
            | succ k => simp [closes_close, ih closing]
      · cases j with
        | zero => exact absurd (Option.some.inj closing) closes
        | succ j =>
            rw [List.take_succ_cons, closes_other opens closes, ih closing,
              unopened_other opens closes]
            simp

theorem unopened_open : unopened (91 :: source) = source.unopened.tail.map (· + 1) :=
  unopened_open_of fun _ closing => closes_iff closing

theorem unclosed_open : unclosed (91 :: source) =
    (if source.unopened = [] then [0] else []) ++ source.unclosed.map (· + 1) := by
  have alone : (∀ j < source.length, source[j]? = some 93 → ¬ Balanced (source.take j)) ↔
      source.unopened = [] := by
    constructor
    · intro none
      cases waiting : source.unopened with
      | nil => rfl
      | cons j later =>
          have closing : source[j]? = some 93 := closing_of_mem_unopened (by simp [waiting])
          have balanced := (closes_iff (k := 0) closing).mpr (by rw [waiting]; rfl)
          exact absurd balanced (none j (List.getElem?_eq_some_iff.mp closing).1 closing)
    · intro empty j _ closing balanced
      have first := (closes_iff (k := 0) closing).mp balanced
      rw [empty] at first
      cases first
  simp [unclosed_cons, alone]

/-! ## All of them -/

theorem ne_of_mem_unopened (member : k ∈ source.unopened) (partners : source.Partners i j) :
    k ≠ i ∧ k ≠ j := by
  have waits := of_decide_eq_true (List.mem_filter.mp member).2
  constructor
  · rintro rfl
    cases waits.1.symm.trans partners.1
  · rintro rfl
    exact waits.2 i partners.2.2.1 partners

theorem ne_of_mem_unclosed (member : k ∈ source.unclosed) (partners : source.Partners i j) :
    k ≠ i ∧ k ≠ j := by
  have waits := of_decide_eq_true (List.mem_filter.mp member).2
  constructor
  · rintro rfl
    exact waits.2 j (List.getElem?_eq_some_iff.mp partners.2.1).1 partners
  · rintro rfl
    cases waits.1.symm.trans partners.2.1

theorem balanced_iff_surplus : Balanced source ↔
    surplus 93 91 source = 0 ∧ source.count 93 = source.count 91 := by
  rw [← Nat.le_zero, surplus_le_iff]
  rfl

theorem surplus_commands (source : Bytes) :
    surplus 93 91 source.commands = surplus 93 91 source := by
  induction source with
  | nil => rfl
  | cons z source ih =>
      have first : commands (z :: source) = commands [z] ++ commands source :=
        commands_append [z] source
      by_cases opens : z = 91
      · subst opens
        rw [surplus_cons_other (by decide), ← ih, ← surplus_cons_other (by decide)]
        exact congrArg _ first
      by_cases closes : z = 93
      · subst closes
        rw [surplus_cons_self (by decide), ← ih, ← surplus_cons_self (by decide)]
        exact congrArg _ first
      rw [surplus_cons_of_ne closes opens, ← ih, first]
      by_cases kept : z ∈ ofString "><+-.,[]"
      · have single : commands [z] = [z] := List.filter_cons_of_pos (decide_eq_true kept)
        rw [single, List.singleton_append, surplus_cons_of_ne closes opens]
      · have none : commands [z] = [] := List.filter_cons_of_neg (by simpa using kept)
        rw [none, List.nil_append]

theorem balanced_commands_iff : Balanced source.commands ↔ Balanced source := by
  rw [balanced_iff_surplus, balanced_iff_surplus, surplus_commands, commands,
    List.count_filter (by decide), List.count_filter (by decide)]

/-- Complaints about the brackets without partner, given the places of indices. -/
def complaintsAt (place : Nat → Position) (source : Bytes) : List Complaint :=
  source.unopened.map (fun j => ⟨place j, ofString "unexpected ]"⟩) ++
    source.unclosed.map (fun i => ⟨place i, ofString "unterminated loop"⟩)

end Bytes

/-! ## What the parser waits for -/

namespace Nest

/-- The brackets that wait in the nest are those without partner in the source,
    which starts at index `k`. -/
structure Waits (place : Nat → Position) (k : Nat) (source : Bytes) (n : Nest) : Prop where
  closers : n.closers.map (·.1) = source.unopened.map fun j => place (k + j)
  openers : n.openers = source.unclosed.map fun i => place (k + i)

variable {place : Nat → Position} {k : Nat} {z : UInt8} {source : Bytes} {n : Nest} {t : Token}

theorem map_place_succ (indices : List Nat) : (indices.map (· + 1)).map (fun j => place (k + j)) =
    indices.map fun j => place (k + 1 + j) := by
  simp [Nat.add_assoc, Nat.add_comm 1]

theorem Waits.other (waits : n.Waits place (k + 1) source) (notOpening : z ≠ 91)
    (notClosing : z ≠ 93) : n.Waits place k (z :: source) := by
  constructor
  · rw [Bytes.unopened_other notOpening notClosing, map_place_succ, waits.closers]
  · rw [Bytes.unclosed_not_open notOpening, map_place_succ, waits.openers]

theorem Waits.close (waits : n.Waits place (k + 1) source) (closes : t.symbol = .loopEnd)
    (here : t.position = place k) : (n.prepend t).Waits place k (93 :: source) := by
  rw [prepend_close closes]
  constructor
  · rw [Bytes.unopened_close, List.map_cons, List.map_cons, map_place_succ, waits.closers, here]
    rfl
  · rw [Bytes.unclosed_not_open (by decide), map_place_succ, waits.openers]

theorem Waits.open (waits : n.Waits place (k + 1) source) (opens : t.symbol = .loopStart)
    (here : t.position = place k) : (n.prepend t).Waits place k (91 :: source) := by
  obtain ⟨closers, openers⟩ := waits
  rcases waiting : n.closers with _ | ⟨⟨p, rest⟩, later⟩
  · -- no closing bracket waits, so the opening one has no partner
    rw [waiting, List.map_nil, eq_comm, List.map_eq_nil_iff] at closers
    rw [prepend_open_alone opens waiting]
    constructor
    · rw [Bytes.unopened_open, waiting, closers]
      rfl
    · rw [Bytes.unclosed_open, if_pos closers, List.map_append, map_place_succ, openers, here]
      rfl
  · rw [waiting, List.map_cons] at closers
    rw [prepend_open opens waiting]
    obtain ⟨j, others, unopened, _, rest⟩ := List.map_eq_cons_iff.mp closers.symm
    constructor
    · rw [Bytes.unopened_open, unopened, map_place_succ]
      exact rest.symm
    · rw [Bytes.unclosed_open, if_neg (by simp [unopened]), List.nil_append, map_place_succ]
      exact openers

/-- Reading the tokens of a source, the parser waits for its brackets without partner. -/
theorem waits_ofTokens (place : Nat → Position) (k : Nat) (source : Bytes) :
    (ofTokens (source.tokensAt place k)).Waits place k source := by
  induction source generalizing k with
  | nil => exact ⟨rfl, rfl⟩
  | cons z source ih =>
      rw [Bytes.tokensAt_cons]
      by_cases opens : z = 91
      · subst opens
        exact (ih (k + 1)).open (t := ⟨.loopStart, place k⟩) rfl rfl
      by_cases closes : z = 93
      · subst closes
        exact (ih (k + 1)).close (t := ⟨.loopEnd, place k⟩) rfl rfl
      obtain ⟨closers, openers⟩ := (ih (k + 1)).other opens closes
      cases symbol : Symbol.ofByte? z with
      | none => exact ⟨closers, openers⟩
      | some s =>
          have byte : s.byte = z := Symbol.ofByte?_eq_some_iff.mp symbol
          obtain ⟨c, named⟩ : ∃ c, s.command? = some c := by
            subst byte
            cases s <;> first | exact ⟨_, rfl⟩ | exact absurd rfl opens | exact absurd rfl closes
          have put : ofTokens (⟨s, place k⟩ :: Bytes.tokensAt place (k + 1) source) =
              (ofTokens (Bytes.tokensAt place (k + 1) source)).command c := prepend_command named
          rw [Option.map_some, Option.toList_some, List.singleton_append, put]
          exact ⟨closers, openers⟩

theorem complaints_ofTokens (place : Nat → Position) (source : Bytes) :
    (ofTokens (source.tokensAt place 0)).complaints = source.complaintsAt place := by
  obtain ⟨closers, openers⟩ := waits_ofTokens place 0 source
  simp only [Nat.zero_add] at closers openers
  have unexpected := congrArg (List.map (Complaint.mk · (Bytes.ofString "unexpected ]"))) closers
  rw [List.map_map, List.map_map] at unexpected
  rw [complaints, Bytes.complaintsAt, openers, List.map_map]
  exact congrArg (· ++ _) unexpected

end Nest

namespace Block

variable {chunks : List Chunk} {bytes : Bytes}

theorem complaints_tokens_eq_nil_iff :
    (Nest.ofTokens bytes.tokens).complaints = [] ↔ bytes.Balanced := by
  have reads := Nest.reads_ofTokens bytes.tokens
  rw [Bytes.map_byte_tokens] at reads
  rw [Nest.complaints_eq_nil_iff reads, Bytes.balanced_commands_iff]

theorem parse_balanced (name : String) (delivers : Delivers chunks bytes)
    (balanced : bytes.Balanced) : parse name chunks = .ok (Nest.ofTokens bytes.tokens).current := by
  have quiet := complaints_tokens_eq_nil_iff.mpr balanced
  simp only [parse, Glyph.readFailure?_ofChunks delivers, Glyph.ofGlyphs_ofChunks delivers,
    Stack.complaints_read, quiet, Stack.block_read quiet]

theorem parse_unbalanced (name : String) (delivers : Delivers chunks bytes)
    (unbalanced : ¬ bytes.Balanced) : parse name chunks =
      .error (.unbalanced name ((Nest.ofTokens bytes.tokens).complaints.take Complaint.limit)) := by
  simp only [parse, Glyph.readFailure?_ofChunks delivers, Glyph.ofGlyphs_ofChunks delivers,
    Stack.complaints_read]
  split
  · next quiet => exact absurd (complaints_tokens_eq_nil_iff.mp quiet) unbalanced
  · rfl

end Block

/-- If the brackets of a source are not balanced, the first ten of those without
    partner are complained about where they stand, closing ones before opening ones. -/
theorem Block.parse_names_unmatched (name : String) {chunks : List Chunk} {bytes : Bytes}
    (delivers : Delivers chunks bytes) (unbalanced : ¬ bytes.Balanced) :
    ∃ complaints, parse name chunks = .error (.unbalanced name complaints) ∧
      complaints = List.take 10
        (bytes.unopened.map (fun j => ⟨bytes.place j, Bytes.ofString "unexpected ]"⟩) ++
          bytes.unclosed.map (fun i => ⟨bytes.place i, Bytes.ofString "unterminated loop"⟩)) ∧
      ∀ c ∈ complaints, ∀ i j, bytes.Partners i j →
        c.position.offset ≠ i ∧ c.position.offset ≠ j := by
  refine ⟨_, parse_unbalanced name delivers unbalanced, ?_, ?_⟩
  · rw [Bytes.tokens, Nest.complaints_ofTokens]
    rfl
  · intro c reported i j partners
    rw [Bytes.tokens, Nest.complaints_ofTokens, Bytes.complaintsAt] at reported
    rcases List.mem_append.mp (List.mem_of_mem_take reported) with member | member
    · obtain ⟨k, waits, rfl⟩ := List.mem_map.mp member
      exact Bytes.ne_of_mem_unopened waits partners
    · obtain ⟨k, waits, rfl⟩ := List.mem_map.mp member
      exact Bytes.ne_of_mem_unclosed waits partners

/-- `]`, then `é[[]` on a line of its own, where `é` is delivered in two parts. -/
def Chunk.unbalanced : List Chunk :=
  [⟨[93, 10, 0xC3], .more⟩, ⟨[0xA9, 91, 91, 93], .ended⟩]

theorem Block.parse_names_unmatched_twoLines :
    Delivers Chunk.unbalanced [93, 10, 0xC3, 0xA9, 91, 91, 93] ∧
    ¬ Bytes.Balanced [93, 10, 0xC3, 0xA9, 91, 91, 93] ∧
    Bytes.Partners [93, 10, 0xC3, 0xA9, 91, 91, 93] 5 6 ∧
    parse "t" Chunk.unbalanced = .error (.unbalanced "t"
      [⟨⟨1, 1, 0⟩, Bytes.ofString "unexpected ]"⟩,
        ⟨⟨2, 2, 4⟩, Bytes.ofString "unterminated loop"⟩]) := by
  have delivers : Delivers Chunk.unbalanced [93, 10, 0xC3, 0xA9, 91, 91, 93] :=
    .more (.ended .nil)
  obtain ⟨complaints, parsed, same, _⟩ := parse_names_unmatched "t" delivers (by decide)
  refine ⟨delivers, by decide, by decide, parsed.trans ?_⟩
  rw [same]
  decide +kernel

end TapeLang
